import Reflector.Text.Pattern
import Reflector.Text.Word
import Reflector.Source.Comment
/-!
# Keyword erasure

A keyword is erased where it stands as a word of its own, that is, where neither neighbour is an
identifier character. Occurrences are taken from left to right without overlap, those that are part
of a longer identifier included.
-/

namespace Reflector.Source

open Text

/-- No identifier runs on across a place with this neighbour. -/
def endsIdent (neighbour : Option Char) : Bool :=
  !neighbour.any isNameChar

/-- Erases a nonempty keyword from a text; `left` is the character before it. -/
def eraseFrom (keyword : List Char) (left : Option Char) (cs : List Char) : List Char :=
  match h : after? keyword cs with
  | some rest =>
    if hk : keyword = [] then cs
    else
      have : rest.length < cs.length := by
        have := List.length_pos_iff.2 hk
        rw [after?_eq_some_iff.1 h, List.length_append]
        omega
      if endsIdent left && endsIdent rest.head? then eraseFrom keyword keyword.getLast? rest
      else keyword ++ eraseFrom keyword keyword.getLast? rest
  | none =>
    match cs with
    | [] => []
    | c :: rest => c :: eraseFrom keyword (some c) rest
termination_by cs.length

/-- Erases a keyword wherever it stands as a word of its own. An empty keyword erases nothing. -/
def withoutKeyword (keyword cs : List Char) : List Char :=
  eraseFrom keyword none cs

@[simp] theorem withoutKeyword_nil (cs : List Char) : withoutKeyword [] cs = cs := by
  simp [withoutKeyword, eraseFrom, after?]

/-- Prepares a source text for scanning: its comments are removed, then the keyword is erased. All
offsets count from the result. -/
def prepare (keyword cs : List Char) : List Char :=
  withoutKeyword keyword (withoutComments cs)

end Reflector.Source
