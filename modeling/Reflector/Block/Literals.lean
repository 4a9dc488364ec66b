import Reflector.Block

namespace Reflector

open Source Text

/-- A string or character literal at its byte offset in a text. -/
structure PlacedLiteral where
  start : Nat
  text : List Char
deriving DecidableEq, Repr

namespace PlacedLiteral

def stop (literal : PlacedLiteral) : Nat :=
  literal.start + byteLength literal.text

/-- The byte offset lies inside the literal, behind its opening quote. -/
def Covers (literal : PlacedLiteral) (pos : Nat) : Prop :=
  literal.start < pos ∧ pos < literal.stop

instance (literal : PlacedLiteral) (pos : Nat) : Decidable (literal.Covers pos) :=
  inferInstanceAs (Decidable (_ ∧ _))

def isWithin (lo hi : Nat) (literal : PlacedLiteral) : Bool :=
  decide (lo ≤ literal.start) && decide (literal.stop ≤ hi)

@[simp] theorem isWithin_iff {lo hi : Nat} {literal : PlacedLiteral} :
    literal.isWithin lo hi = true ↔ lo ≤ literal.start ∧ literal.stop ≤ hi := by
  simp [isWithin]

end PlacedLiteral

/-- The literals of a text that starts at the given offset behind the lead, from left to right. -/
def literalsFrom (offset : Nat) (lead : Lead) : List Char → List PlacedLiteral
  | [] => []
  | c :: cs =>
    if lead.opens c then
      have := length_splitLiteral_le c cs
      let literal := c :: (splitLiteral c cs).1
      ⟨offset, literal⟩ ::
        literalsFrom (offset + byteLength literal) (lead.after literal) (splitLiteral c cs).2
    else literalsFrom (offset + c.utf8Size) (lead.next c) cs
termination_by cs => cs.length

def literals (cs : List Char) : List PlacedLiteral :=
  literalsFrom 0 .none cs

/-- Reads on until the nesting is closed, as `closeBlock` does, and lists the literals that are
skipped, whether the nesting is closed in the end or not. -/
def traceBlock (nesting : Nesting) (offset : Nat) (lead : Lead) :
    List Char → List PlacedLiteral × Option (List Char × List Char)
  | [] => ([], none)
  | c :: cs =>
    if lead.opens c then
      have := length_splitLiteral_le c cs
      let literal := c :: (splitLiteral c cs).1
      let (skipped, block) := traceBlock nesting (offset + byteLength literal) (lead.after literal)
        (splitLiteral c cs).2
      (⟨offset, literal⟩ :: skipped, block.map fun (text, rest) => (literal ++ text, rest))
    else if (nesting.next c).isClosed then ([], some ([c], cs))
    else
      let (skipped, block) := traceBlock (nesting.next c) (offset + c.utf8Size) (lead.next c) cs
      (skipped, block.map fun (text, rest) => (c :: text, rest))
termination_by cs => cs.length

/-- The literals that the search for the end of the first block at or after `start` skips. -/
def skippedLiterals (cs : List Char) (start : Nat) : List PlacedLiteral :=
  let (before, rest) := splitFromByte start cs
  (traceBlock {} (byteLength before) (Lead.none.after before) rest).1

theorem literalsFrom_of_opens {lead : Lead} {c : Char} (h : lead.opens c = true) (offset : Nat)
    (cs : List Char) :
    literalsFrom offset lead (c :: cs) = ⟨offset, c :: (splitLiteral c cs).1⟩ ::
      literalsFrom (offset + byteLength (c :: (splitLiteral c cs).1))
        (lead.after (c :: (splitLiteral c cs).1)) (splitLiteral c cs).2 := by
  rw [literalsFrom, if_pos h]

theorem literalsFrom_of_not_opens {lead : Lead} {c : Char} (h : ¬ lead.opens c = true)
    (offset : Nat) (cs : List Char) :
    literalsFrom offset lead (c :: cs) = literalsFrom (offset + c.utf8Size) (lead.next c) cs := by
  rw [literalsFrom, if_neg h]

theorem traceBlock_snd (nesting : Nesting) (offset : Nat) (lead : Lead) (cs : List Char) :
    (traceBlock nesting offset lead cs).2 = closeBlock nesting lead cs := by
  fun_induction closeBlock nesting lead cs generalizing offset with
  | case1 => simp [traceBlock]
  | case2 nesting lead c cs ho _ literal ih =>
    rw [traceBlock, if_pos ho, ← ih (offset + byteLength literal)]
  | case3 nesting lead c cs ho hclosed => rw [traceBlock, if_neg ho, if_pos hclosed]
  | case4 nesting lead c cs ho hclosed ih =>
    rw [traceBlock, if_neg ho, if_neg hclosed, ← ih (offset + c.utf8Size)]

end Reflector
