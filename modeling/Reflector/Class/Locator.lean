import Reflector.Class.Scan
/-!
# Scanning one class at a time

A locator yields the class declarations of a text on demand. It keeps the place behind the last one
and whether the scan has ended: after a header that cannot be read, after an unbalanced class and
behind the last header it yields nothing more.
-/

namespace Reflector

open Text

/-- Where a scan on demand stands. -/
structure Locator where
  /-- The byte offset of the text not read yet. -/
  cursor : Nat := 0
  done : Bool := false
deriving DecidableEq, Repr

namespace Locator

/-- The next class of a text, or why its header cannot be read, and where the scan stands then. -/
def next (keywords : List (List Char)) (buffer : List Char) (l : Locator) :
    Option (Except Failure ClassBlock) × Locator :=
  if l.done then (none, l)
  else match (headerPattern keywords).find? none (splitFromByte l.cursor buffer).2 with
    | none => (none, { l with done := true })
    | some o =>
      let start := l.cursor + byteLength o.before
      match blockEnd? buffer start with
      | none => (none, { l with done := true })
      | some stop =>
        let header := slice start (start + byteLength o.piece) buffer
        match headerName keywords header with
        | .ok name => (some (.ok ⟨name, header, slice start stop buffer, start⟩), ⟨stop, false⟩)
        | .error failure => (some (.error failure), ⟨stop, true⟩)

/-- What the call of this number yields, counted from zero. -/
def item? (keywords : List (List Char)) (buffer : List Char) (l : Locator) :
    Nat → Option (Except Failure ClassBlock)
  | 0 => (l.next keywords buffer).1
  | n + 1 => (l.next keywords buffer).2.item? keywords buffer n

/-- The calls of a locator yield these items one after the other, and then nothing. -/
def Yields (keywords : List (List Char)) (buffer : List Char)
    (items : List (Except Failure ClassBlock)) : Prop :=
  ∀ n, item? keywords buffer {} n = items[n]?

theorem next_of_done {l : Locator} (h : l.done = true) (keywords : List (List Char))
    (buffer : List Char) : l.next keywords buffer = (none, l) := by
  simp [next, h]

end Locator

/-- What a scan yields on demand: the classes in order and then the failure, if it failed. -/
def Scan.items (scan : Scan) : List (Except Failure ClassBlock) :=
  scan.classes.map .ok ++
    match scan.ending with
    | .failed failure => [.error failure]
    | _ => []

def ClassBlock.shift (bytes : Nat) (decl : ClassBlock) : ClassBlock :=
  { decl with offset := bytes + decl.offset }

def ClassBlock.stop (decl : ClassBlock) : Nat :=
  decl.offset + byteLength decl.body

end Reflector
