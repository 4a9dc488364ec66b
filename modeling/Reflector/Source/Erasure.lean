import Reflector.Source.Keyword

namespace Reflector.Source

open Text

/-- Erases a keyword, as `eraseFrom` does, from a text that starts at the given offset, and lists the byte
offsets of the occurrences that are taken out. -/
def traceErasure (keyword : List Char) (offset : Nat) (left : Option Char) (cs : List Char) :
    List Nat × List Char :=
  match h : after? keyword cs with
  | some rest =>
    if hk : keyword = [] then ([], cs)
    else
      have : rest.length < cs.length := by
        have := List.length_pos_iff.2 hk
        rw [after?_eq_some_iff.1 h, List.length_append]
        omega
      let (erased, text) :=
        traceErasure keyword (offset + byteLength keyword) keyword.getLast? rest
      if endsIdent left && endsIdent rest.head? then (offset :: erased, text)
      else (erased, keyword ++ text)
  | none =>
    match cs with
    | [] => ([], [])
    | c :: rest =>
      let (erased, text) := traceErasure keyword (offset + c.utf8Size) (some c) rest
      (erased, c :: text)
termination_by cs.length

/-- The byte offsets of the occurrences of a keyword that are erased from a text. -/
def erasedOffsets (keyword cs : List Char) : List Nat :=
  (traceErasure keyword 0 none cs).1

end Reflector.Source
