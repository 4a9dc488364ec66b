import Reflector.Source.Literal
import Reflector.Text.Offset
/-!
# Balanced blocks

A block runs from any place through the brace that brings the nesting count back to zero after an
opening brace has been seen. Braces inside string and character literals do not count.
-/

namespace Reflector

open Source Text

/-- The brace count of the text read so far. -/
structure Nesting where
  /-- Opening braces less closing braces. In 32 bits the count is the same for fewer than 2^31 braces. -/
  depth : Int := 0
  /-- An opening brace has been seen. -/
  opened : Bool := false
deriving DecidableEq, Repr

namespace Nesting

def next (n : Nesting) (c : Char) : Nesting :=
  if c = '{' then ⟨n.depth + 1, true⟩
  else if c = '}' then ⟨n.depth - 1, n.opened⟩
  else n

/-- Every brace seen is balanced, and there was one to open. -/
def isClosed (n : Nesting) : Bool :=
  n.opened && n.depth == 0

end Nesting

/-- Reads on until the nesting is closed; answers the text read and the rest. -/
def closeBlock (nesting : Nesting) (lead : Lead) : List Char → Option (List Char × List Char)
  | [] => none
  | c :: cs =>
    if lead.opens c then
      have := length_splitLiteral_le c cs
      let literal := c :: (splitLiteral c cs).1
      (closeBlock nesting (lead.after literal) (splitLiteral c cs).2).map
        fun (text, rest) => (literal ++ text, rest)
    else if (nesting.next c).isClosed then some ([c], cs)
    else
      (closeBlock (nesting.next c) (lead.next c) cs).map fun (text, rest) => (c :: text, rest)
termination_by cs => cs.length

/-- Splits a text after the brace that closes its first block. `lead` is what stands before. -/
def splitBlock (lead : Lead) (cs : List Char) : Option (List Char × List Char) :=
  closeBlock {} lead cs

/-- The byte offset just past the brace that closes the first block at or after `start`. -/
def blockEnd? (cs : List Char) (start : Nat) : Option Nat :=
  let (before, rest) := splitFromByte start cs
  (splitBlock (Lead.none.after before) rest).map fun (text, _) =>
    byteLength before + byteLength text

def isFlat (c : Char) : Bool :=
  c != '"' && c != '\'' && c != '{' && c != '}'

theorem closeBlock_sound {nesting : Nesting} {lead : Lead} {cs text rest : List Char}
    (h : closeBlock nesting lead cs = some (text, rest)) : text ≠ [] ∧ cs = text ++ rest := by
  fun_induction closeBlock nesting lead cs generalizing text rest with
  | case1 => contradiction
  | case2 =>
    rename_i ih
    obtain ⟨⟨t, r⟩, ht, he⟩ := Option.map_eq_some_iff.1 h
    simp only [Prod.mk.injEq] at he
    obtain ⟨rfl, rfl⟩ := he
    refine ⟨by simp, ?_⟩
    rw [List.append_assoc, ← (ih ht).2]
    exact (congrArg (List.cons _) (splitLiteral_append _ _)).symm
  | case3 nesting lead c cs =>
    simp only [Option.some.injEq, Prod.mk.injEq] at h
    obtain ⟨rfl, rfl⟩ := h
    simp
  | case4 nesting lead c cs _ _ ih =>
    obtain ⟨⟨t, r⟩, ht, he⟩ := Option.map_eq_some_iff.1 h
    simp only [Prod.mk.injEq] at he
    obtain ⟨rfl, rfl⟩ := he
    exact ⟨by simp, by rw [(ih ht).2]; rfl⟩

theorem splitBlock_sound {lead : Lead} {cs text rest : List Char}
    (h : splitBlock lead cs = some (text, rest)) : text ≠ [] ∧ cs = text ++ rest :=
  closeBlock_sound h

end Reflector
