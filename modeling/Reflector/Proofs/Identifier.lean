import Reflector.Class.Description

namespace Reflector

open Text

private theorem toNat_of_isNameChar {c : Char} (h : isNameChar c = true) :
    48 ≤ c.toNat ∧ c.toNat ≤ 122 := by
  rcases toNat_cases_of_isNameChar h with ((h | h) | h) | rfl
  · omega
  · omega
  · omega
  · decide

theorem isBlank_of_isNameChar {c : Char} (h : isNameChar c = true) : isBlank c = false := by
  obtain ⟨hlow, hhigh⟩ := toNat_of_isNameChar h
  simp only [isBlank, Bool.or_eq_false_iff, Bool.and_eq_false_iff, decide_eq_false_iff_not,
    beq_eq_false_iff_ne]
  omega

theorem ne_of_class {p : Char → Bool} {c d : Char} (h : p c = true) (hd : p d = false) :
    c ≠ d := by
  intro he
  rw [he, hd] at h
  contradiction

theorem isIdentifier_iff {word : List Char} :
    isIdentifier word = true ↔
      ∃ c cs, word = c :: cs ∧ isNameStart c = true ∧ ∀ d ∈ cs, isNameChar d = true := by
  cases word with
  | nil => simp [isIdentifier]
  | cons c cs =>
    have hfirst : isNameStart c = true → isNameChar c = true := isNameChar_of_isNameStart
    simp only [isIdentifier, List.head?_cons, Option.any_some, List.all_cons, Bool.and_eq_true,
      List.all_eq_true, List.cons.injEq]
    constructor
    · rintro ⟨hstart, -, hchars⟩
      exact ⟨c, cs, ⟨rfl, rfl⟩, hstart, hchars⟩
    · rintro ⟨_, _, ⟨rfl, rfl⟩, hstart, hchars⟩
      exact ⟨hstart, hfirst hstart, hchars⟩

theorem isNameChar_of_mem_isIdentifier {word : List Char} (h : isIdentifier word = true) :
    ∀ c ∈ word, isNameChar c = true := by
  simp only [isIdentifier, Bool.and_eq_true, List.all_eq_true] at h
  exact h.2

theorem isWord_of_mem_isIdentifier {word : List Char} (h : isIdentifier word = true) :
    ∀ c ∈ word, isWord c = true :=
  fun c hc => isWord_of_isNameChar (isNameChar_of_mem_isIdentifier h c hc)

theorem isNameChar_of_isGapChar {c : Char} (h : isGapChar c = true) :
    isNameChar c = false := by
  simp only [isGapChar, Bool.or_eq_true, beq_iff_eq] at h
  rcases h with (((rfl | rfl) | rfl) | rfl) | rfl <;> decide

theorem isGapChar_of_isNameStart {c : Char} (h : isNameStart c = true) : isGapChar c = false := by
  cases hc : isGapChar c with
  | false => rfl
  | true =>
    have hname := isNameChar_of_isNameStart h
    rw [isNameChar_of_isGapChar hc] at hname
    contradiction

end Reflector
