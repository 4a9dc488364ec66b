import Reflector.Bytes.Literal
import Reflector.Source.Keyword
/-!
# Source texts by byte index

Comment removal and keyword erasure copy the pieces of a text that they keep. Either keeps the index
up to which the text has been dealt with, and cuts the next piece out from there.
-/

namespace Reflector.Bytes

open Text Source

def blockCommentEnd (bytes : List UInt8) (i : Nat) : Nat :=
  match findPair? '*' '/' bytes i with
  | some stop => stop + 2
  | none => bytes.length

theorem le_blockCommentEnd (bytes : List UInt8) (i : Nat) :
    min i bytes.length ≤ blockCommentEnd bytes i := by
  unfold blockCommentEnd
  split
  · rename_i stop hstop
    have := findPair?_bounds hstop
    omega
  · exact Nat.min_le_right _ _

/-- Removes the comments from index `i` on. The text between `last` and `i` is kept, but not copied
yet. -/
def withoutCommentsFrom? (cs : List Char) (last i : Nat) : Option (List Char) :=
  match h : at? (encode cs) i with
  | none => suffix? last cs
  | some c =>
    if (c = '"' ∨ c = '\'') ∧ opensLiteral (encode cs) i = true then
      withoutCommentsFrom? cs last (literalEnd c (encode cs) (i + 1))
    else if hline : c = '/' ∧ at? (encode cs) (i + 1) = some '/' then do
      let kept ← slice? last i cs
      let stop := skipWhile (!isLineBreak ·) (encode cs) i
      let later ← withoutCommentsFrom? cs stop stop
      return kept ++ later
    else if c = '/' ∧ at? (encode cs) (i + 1) = some '*' then do
      let kept ← slice? last i cs
      let _ ← suffix? (i + 2) cs
      let stop := blockCommentEnd (encode cs) (i + 2)
      let later ← withoutCommentsFrom? cs stop stop
      return kept ++ ' ' :: later
    else withoutCommentsFrom? cs last (i + 1)
termination_by (encode cs).length - i
decreasing_by
  · have := lt_of_at? h
    have := literalEnd_bounds c (encode cs) (i + 1)
    omega
  · have := lt_of_at? h
    have := lt_skipWhile (p := (!isLineBreak ·)) h (by rw [hline.1]; rfl)
    omega
  · have := lt_of_at? h
    have := le_blockCommentEnd (encode cs) (i + 2)
    omega
  · have := lt_of_at? h
    omega

/-- The offsets where a nonempty word is found from left to right, without overlap. -/
def matchOffsets (word : List Char) (offset : Nat) (cs : List Char) : List Nat :=
  match h : after? word cs with
  | some rest =>
    if hw : word = [] then []
    else
      have : rest.length < cs.length := by
        have := List.length_pos_iff.mpr hw
        rw [after?_eq_some_iff.mp h, List.length_append]
        omega
      offset :: matchOffsets word (offset + byteLength word) rest
  | none =>
    match cs with
    | [] => []
    | c :: rest => matchOffsets word (offset + c.utf8Size) rest
termination_by cs.length

/-- Erases a keyword of so many bytes at those of the offsets where it stands as a word of its own. The
text from `last` on is not copied yet. -/
def withoutKeywordAt? (size : Nat) (cs : List Char) (last : Nat) : List Nat → Option (List Char)
  | [] => suffix? last cs
  | start :: later => do
    let bytes := encode cs
    let stop := start + size
    let left ← left? bytes start
    if endsIdent left && endsIdent (at? bytes stop) && decide (last ≤ start) then
      let kept ← slice? last start cs
      let more ← withoutKeywordAt? size cs stop later
      return kept ++ more
    else withoutKeywordAt? size cs last later

def prepare? (keyword cs : List Char) : Option (List Char) := do
  let plain ← withoutCommentsFrom? cs 0 0
  if keyword = [] then return plain
  else withoutKeywordAt? (byteLength keyword) plain 0 (matchOffsets keyword 0 plain)

end Reflector.Bytes
