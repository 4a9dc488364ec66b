import Reflector.Block.Literals

namespace Reflector

open Source Text

/-- A brace outside literals at its byte offset in a text. -/
structure PlacedBrace where
  start : Nat
  /-- An opening brace and not a closing one. -/
  isOpening : Bool
deriving DecidableEq, Repr

namespace PlacedBrace

def char (brace : PlacedBrace) : Char :=
  if brace.isOpening then '{' else '}'

def stop (brace : PlacedBrace) : Nat :=
  brace.start + 1

theorem utf8Size_char (brace : PlacedBrace) : brace.char.utf8Size = 1 := by
  rw [char]
  split <;> rfl

end PlacedBrace

def brace? (offset : Nat) (c : Char) : Option PlacedBrace :=
  if c = '{' then some ⟨offset, true⟩
  else if c = '}' then some ⟨offset, false⟩
  else none

theorem brace?_eq_some_iff {offset : Nat} {c : Char} {brace : PlacedBrace} :
    brace? offset c = some brace ↔ c = brace.char ∧ brace.start = offset := by
  obtain ⟨start, isOpening⟩ := brace
  by_cases ho : c = '{'
  · subst ho
    cases isOpening <;> simp [brace?, PlacedBrace.char, eq_comm]
  · by_cases hc : c = '}'
    · subst hc
      cases isOpening <;> simp [brace?, PlacedBrace.char, eq_comm]
    · cases isOpening <;> simp [brace?, PlacedBrace.char, ho, hc]

theorem brace?_eq_none_iff {offset : Nat} {c : Char} :
    brace? offset c = none ↔ c ≠ '{' ∧ c ≠ '}' := by
  by_cases ho : c = '{' <;> by_cases hc : c = '}' <;> simp [brace?, ho, hc]

/-- The braces outside literals of a text that starts at the given offset behind the lead. -/
def bracesFrom (offset : Nat) (lead : Lead) : List Char → List PlacedBrace
  | [] => []
  | c :: cs =>
    if lead.opens c then
      have := length_splitLiteral_le c cs
      let literal := c :: (splitLiteral c cs).1
      bracesFrom (offset + byteLength literal) (lead.after literal) (splitLiteral c cs).2
    else (brace? offset c).toList ++ bracesFrom (offset + c.utf8Size) (lead.next c) cs
termination_by cs => cs.length

/-- The braces at or after `start` that stand outside the literals met from there on. -/
def braces (cs : List Char) (start : Nat) : List PlacedBrace :=
  let (before, rest) := splitFromByte start cs
  bracesFrom (byteLength before) (Lead.none.after before) rest

/-- The braces pair up: each one of the first kind with the one of the other kind that ends the pairs
begun behind it. `opening` says which kind comes first in a pair. -/
inductive Paired (opening : Bool) : List PlacedBrace → Prop
  | nil : Paired opening []
  | pair {first last : PlacedBrace} {inside more : List PlacedBrace} :
      first.isOpening = opening → Paired opening inside → last.isOpening = !opening →
      Paired opening more → Paired opening (first :: inside ++ last :: more)

/-- A closing brace comes before the first opening one. -/
def BeginsStray (braces : List PlacedBrace) : Prop :=
  (∃ first ∈ braces.head?, first.isOpening = false) ∧ ∃ brace ∈ braces, brace.isOpening = true

instance (braces : List PlacedBrace) : Decidable (BeginsStray braces) :=
  inferInstanceAs (Decidable (_ ∧ _))

/-- The brace pairs with the first opening brace, whatever closing braces stand before that one. -/
def PairsFirstOpening (braces : List PlacedBrace) (last : PlacedBrace) : Prop :=
  ∃ stray first inside rest, braces = stray ++ first :: inside ++ last :: rest ∧
    (∀ brace ∈ stray, brace.isOpening = false) ∧ first.isOpening = true ∧
    Paired true inside ∧ last.isOpening = false

/-- The brace pairs with the first brace of either kind. Where that is a closing brace, the pairs run
backwards, from closing to opening braces. -/
def PairsFirst (braces : List PlacedBrace) (last : PlacedBrace) : Prop :=
  ∃ first inside rest, braces = first :: inside ++ last :: rest ∧
    Paired first.isOpening inside ∧ last.isOpening = !first.isOpening

/-- The pairs run backwards where a closing brace comes before the first opening one. -/
theorem PairsFirst.beginsStray_iff {braces : List PlacedBrace} {last : PlacedBrace}
    (h : PairsFirst braces last) : BeginsStray braces ↔ last.isOpening = true := by
  obtain ⟨first, inside, rest, rfl, -, hlast⟩ := h
  constructor
  · rintro ⟨⟨_, hfirst, hclosing⟩, -⟩
    obtain rfl := Option.some.inj hfirst
    rw [hlast, hclosing]
    rfl
  · intro hopening
    have hclosing : first.isOpening = false := by
      rw [hopening] at hlast
      simpa using hlast.symm
    exact ⟨⟨first, rfl, hclosing⟩, last, by simp, hopening⟩

theorem pairsFirstOpening_iff {braces : List PlacedBrace} {last : PlacedBrace}
    (h : ¬ BeginsStray braces) : PairsFirstOpening braces last ↔ PairsFirst braces last := by
  constructor
  · rintro ⟨stray, first, inside, rest, rfl, hstray, hfirst, hinside, hlast⟩
    cases stray with
    | nil => exact ⟨first, inside, rest, rfl, by rwa [hfirst], by rw [hlast, hfirst]; rfl⟩
    | cons brace stray =>
      refine absurd ⟨⟨brace, rfl, hstray brace List.mem_cons_self⟩, first, ?_, hfirst⟩ h
      simp
  · intro hpairs
    have hlast : last.isOpening = false := by
      rw [hpairs.beginsStray_iff] at h
      simpa using h
    obtain ⟨first, inside, rest, rfl, hinside, hother⟩ := hpairs
    have hfirst : first.isOpening = true := by
      rw [hlast] at hother
      simpa using hother.symm
    rw [hfirst] at hinside
    exact ⟨[], first, inside, rest, rfl, by simp, hfirst, hinside, hlast⟩

end Reflector
