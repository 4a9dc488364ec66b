import Reflector.Block
import Reflector.Class.Header
/-!
# Scanning for class declarations

A prepared text is scanned from left to right. Each declaration is a header together with the block
that it opens, and the scan goes on behind the block, so that nested classes belong to the class
around them. The scan ends early at a class whose braces do not balance or whose name is missing.
-/

namespace Reflector

open Text Source

structure ClassBlock where
  name : String
  /-- From the class keyword through the opening brace. -/
  header : List Char
  /-- From the class keyword through the closing brace. -/
  body : List Char
  offset : Nat
deriving DecidableEq, Repr

inductive Ending where
  | complete
  /-- The braces after the header at this offset do not balance. -/
  | unbalanced (offset : Nat)
  | failed (failure : Failure)
deriving DecidableEq, Repr

/-- The declarations of a text in order, and how the scan for them ended. -/
structure Scan where
  classes : List ClassBlock
  ending : Ending
deriving DecidableEq, Repr

namespace Scan

/-- Scans a text that starts at the given offset, right behind a brace or at the very beginning. -/
def startingAt (keywords : List (List Char)) (offset : Nat) (cs : List Char) : Scan :=
  match hf : (headerPattern keywords).find? none cs with
  | none => ⟨[], .complete⟩
  | some o =>
    let start := offset + byteLength o.before
    match hb : splitBlock (Lead.none.after o.before) (o.piece ++ o.after) with
    | none => ⟨[], .unbalanced start⟩
    | some (body, rest) =>
      match headerName keywords o.piece with
      | .error failure => ⟨[], .failed failure⟩
      | .ok name =>
        have : rest.length < cs.length := by
          have hs := (Pattern.find?_sound hf).2
          obtain ⟨hne, hr⟩ := splitBlock_sound hb
          have := List.length_pos_iff.2 hne
          rw [hs, List.append_assoc, hr]
          simp only [List.length_append]
          omega
        let later := startingAt keywords (start + byteLength body) rest
        ⟨⟨name, o.piece, body, start⟩ :: later.classes, later.ending⟩
termination_by cs.length

end Scan

/-- Finds the class declarations of a prepared text. -/
def scanClasses (keywords : List (List Char)) (cs : List Char) : Scan :=
  Scan.startingAt keywords 0 cs

end Reflector
