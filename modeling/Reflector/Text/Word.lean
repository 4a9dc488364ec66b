import Reflector.Text.WordRanges

namespace Reflector.Text

/-- The character can stand in a word of some script. -/
def isWord (c : Char) : Bool :=
  wordRanges.any fun (lo, hi) => decide (lo ≤ c.toNat) && decide (c.toNat ≤ hi)

/-- A word begins or ends between two neighbours, where `none` is the end of the text. -/
def isWordBoundary (left right : Option Char) : Bool :=
  left.any isWord != right.any isWord

/-- The character can start an identifier: an ASCII letter or an underscore. -/
def isNameStart (c : Char) : Bool :=
  c.isAlpha || c == '_'

/-- The character can stand in an identifier: an ASCII letter, a digit or an underscore. -/
def isNameChar (c : Char) : Bool :=
  c.isAlphanum || c == '_'

theorem isNameChar_of_isNameStart {c : Char} (h : isNameStart c = true) :
    isNameChar c = true := by
  simp only [isNameStart, isNameChar, Char.isAlphanum, Bool.or_eq_true] at *
  rcases h with h | h
  · exact Or.inl (Or.inl h)
  · exact Or.inr h

theorem toNat_cases_of_isNameChar {c : Char} (h : isNameChar c = true) :
    (((65 ≤ c.toNat ∧ c.toNat ≤ 90) ∨ (97 ≤ c.toNat ∧ c.toNat ≤ 122)) ∨
      (48 ≤ c.toNat ∧ c.toNat ≤ 57)) ∨ c = '_' := by
  rw [isNameChar, Char.isAlphanum] at h
  delta Char.isAlpha Char.isUpper Char.isLower Char.isDigit at h
  simp only [Bool.or_eq_true, Bool.and_eq_true, decide_eq_true_eq, UInt32.le_iff_toNat_le,
    ge_iff_le, beq_iff_eq] at h
  exact h

theorem isWord_of_isNameChar {c : Char} (h : isNameChar c = true) : isWord c = true := by
  have hrange : ∃ range ∈ wordRanges, range.1 ≤ c.toNat ∧ c.toNat ≤ range.2 := by
    rcases toNat_cases_of_isNameChar h with ((h | h) | h) | rfl
    · exact ⟨(0x41, 0x5A), .tail _ (.head _), h⟩
    · exact ⟨(0x61, 0x7A), .tail _ (.tail _ (.tail _ (.head _))), h⟩
    · exact ⟨(0x30, 0x39), .head _, h⟩
    · exact ⟨(0x5F, 0x5F), .tail _ (.tail _ (.head _)), by decide⟩
  simpa only [isWord, List.any_eq_true, Bool.and_eq_true, decide_eq_true_eq] using hrange

theorem isWordBoundary_comm (a b : Option Char) : isWordBoundary a b = isWordBoundary b a := by
  simp only [isWordBoundary]
  cases a.any isWord <;> cases b.any isWord <;> rfl

theorem isWordBoundary_of_isWord {c : Char} (h : isWord c = true) {left : Option Char}
    (hleft : ∀ d ∈ left, isWord d = false) : isWordBoundary left (some c) = true := by
  cases left with
  | none => simp [isWordBoundary, h]
  | some d => simp [isWordBoundary, h, hleft d rfl]

/-- Only the class of the neighbours counts, so a character outside words is as good as an end. -/
theorem isWordBoundary_of_not_isWord {c : Char} (h : isWord c = false) (b : Option Char) :
    isWordBoundary (some c) b = isWordBoundary none b := by
  simp [isWordBoundary, h]

end Reflector.Text
