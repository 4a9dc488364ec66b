/-!
# Edit distance

The least number of insertions, deletions and substitutions of single elements that turn one list
into another. It is computed row by row: the row of a list holds its distances to all initial parts
of the other list, from the empty one on.
-/

namespace Reflector.Text

variable {α : Type} [DecidableEq α]

/-- The entries of the next row behind its first. `left` is the entry before them, and the row above
begins with the entry diagonal to the first of them. -/
def fillRow (x : α) (left : Nat) : List α → List Nat → List Nat
  | y :: ys, diagonal :: above :: row =>
    let entry := min (min (above + 1) (left + 1)) (diagonal + if x = y then 0 else 1)
    entry :: fillRow x entry ys (above :: row)
  | _, _ => []

def nextRow (ys : List α) (row : List Nat) (x : α) : List Nat :=
  let first := row.headD 0 + 1
  first :: fillRow x first ys row

def editDistance (xs ys : List α) : Nat :=
  (xs.foldl (nextRow ys) (List.range (ys.length + 1))).getLastD 0

end Reflector.Text
