import Reflector.Proofs.ByteLiteral
import Reflector.Proofs.LexemeRun
/-!
# Digit separators

An apostrophe is judged by the first character of the run of number characters before it. A number
that begins with a digit therefore keeps its separators, and a quoted character behind a prefix opens.
A number that begins with a dot does not keep them: the dot belongs to the run and is no digit.
-/

namespace Reflector.Source

/-- What can stand behind the first digit of a number: letters, digits, underscores, dots, and
apostrophes with a letter or digit behind each. -/
inductive NumberTail : List Char → Prop
  | nil : NumberTail []
  | char {c : Char} {tail : List Char} : c.isAlphanum = true ∨ c = '_' ∨ c = '.' → NumberTail tail →
      NumberTail (c :: tail)
  | separator {c : Char} {tail : List Char} : c.isAlphanum = true → NumberTail tail →
      NumberTail ('\'' :: c :: tail)

/-- A number begins with a digit, or with a dot and a digit. -/
inductive IsNumber : List Char → Prop
  | digit {d : Char} {tail : List Char} : d.isDigit = true → NumberTail tail → IsNumber (d :: tail)
  | dot {d : Char} {tail : List Char} : d.isDigit = true → NumberTail tail →
      IsNumber ('.' :: d :: tail)

/-- A number in a text. No character before it could be part of it. -/
structure PlacedNumber (text : List Char) where
  before : List Char
  number : List Char
  after : List Char
  text_eq : text = before ++ number ++ after
  isNumber : IsNumber number
  begins : ∀ c ∈ before.getLast?, isNumberChar c = false

/-- An apostrophe in a text, with the longest run of number characters before it. -/
structure Apostrophe (text : List Char) where
  before : List Char
  run : List Char
  after : List Char
  text_eq : text = before ++ run ++ '\'' :: after
  isNumberChar_run : ∀ c ∈ run, isNumberChar c = true
  longest : ∀ c ∈ before.getLast?, isNumberChar c = false

def Apostrophe.offset {text : List Char} (mark : Apostrophe text) : Nat :=
  Text.byteLength (mark.before ++ mark.run)

private theorem isNumberChar_of_isAlphanum {c : Char} (h : c.isAlphanum = true) :
    isNumberChar c = true := by
  simp [isNumberChar, h]

private theorem isAlphanum_of_isDigit {c : Char} (h : c.isDigit = true) : c.isAlphanum = true := by
  simp [Char.isAlphanum, h]

private theorem NumberTail.isNumberChar {tail : List Char} (h : NumberTail tail) :
    ∀ c ∈ tail, isNumberChar c = true := by
  induction h with
  | nil => simp
  | char hc _ ih =>
    refine List.forall_mem_cons.mpr ⟨?_, ih⟩
    rcases hc with hc | rfl | rfl
    · exact isNumberChar_of_isAlphanum hc
    · rfl
    · rfl
  | separator hc _ ih =>
    exact List.forall_mem_cons.mpr ⟨rfl, List.forall_mem_cons.mpr ⟨isNumberChar_of_isAlphanum hc, ih⟩⟩

namespace IsNumber

variable {number : List Char}

private theorem isNumberChar (h : IsNumber number) : ∀ c ∈ number, isNumberChar c = true := by
  cases h with
  | digit hd htail =>
    have hfirst := isNumberChar_of_isAlphanum (isAlphanum_of_isDigit hd)
    exact List.forall_mem_cons.mpr ⟨hfirst, htail.isNumberChar⟩
  | dot hd htail =>
    have hsecond := isNumberChar_of_isAlphanum (isAlphanum_of_isDigit hd)
    exact List.forall_mem_cons.mpr ⟨rfl, List.forall_mem_cons.mpr ⟨hsecond, htail.isNumberChar⟩⟩

theorem head?_eq (h : IsNumber number) :
    ∃ c, number.head? = some c ∧ c ≠ '\'' ∧ (c.isDigit = true ↔ c ≠ '.') := by
  cases h with
  | digit hd _ =>
    refine ⟨_, rfl, ?_, iff_of_true hd ?_⟩
    · rintro rfl
      exact absurd hd (by decide)
    · rintro rfl
      exact absurd hd (by decide)
  | dot => exact ⟨'.', rfl, by decide, by decide⟩

end IsNumber

/-- A run of number characters behind another character, or at the start, makes the lead that its first
character tells. -/
private theorem Lead.none_after_run {before run : List Char}
    (hbefore : ∀ c ∈ before.getLast?, isNumberChar c = false)
    (hrun : ∀ c ∈ run, isNumberChar c = true) :
    Lead.none.after (before ++ run) = Lead.digits ↔ ∃ c ∈ run.head?, c.isDigit = true := by
  have hlead : Lead.none.after before = Lead.none := by
    induction before using List.reverseRecOn with
    | nil => rfl
    | append_singleton before c _ =>
      have hc : Source.isNumberChar c = false := hbefore c (by simp)
      exact Lead.after_concat_of_not_isNumberChar hc _ _
  rw [Lead.after_append, hlead]
  cases run with
  | nil => simp
  | cons c run =>
    rw [Lead.none_after_cons hrun]
    cases hc : c.isDigit <;> simp [hc]

namespace PlacedNumber

variable {text : List Char}

def apostrophe (placed : PlacedNumber text) {front back : List Char}
    (h : placed.number = front ++ '\'' :: back) : Apostrophe text where
  before := placed.before
  run := front
  after := back ++ placed.after
  text_eq := placed.text_eq.trans (by simp [h])
  isNumberChar_run c hc := placed.isNumber.isNumberChar c (by simp [h, hc])
  longest := placed.begins

private theorem head?_of_eq_append (placed : PlacedNumber text) {front back : List Char}
    (h : placed.number = front ++ '\'' :: back) : front.head? = placed.number.head? := by
  obtain ⟨c, hc, hne, -⟩ := placed.isNumber.head?_eq
  cases front with
  | nil =>
    rw [h] at hc
    exact absurd (Option.some.inj hc).symm hne
  | cons d front => rw [h]; rfl

end PlacedNumber

end Reflector.Source

namespace Reflector.Bytes

open Source Text

theorem opensLiteral_offset {text : List Char} (mark : Apostrophe text) :
    opensLiteral (encode text) mark.offset = true ↔ ∀ c ∈ mark.run.head?, c.isDigit = false := by
  have hlead := Lead.none_after_run mark.longest mark.isNumberChar_run
  have hopens : opensLiteral (encode text) mark.offset = true ↔
      ¬ Lead.none.after (mark.before ++ mark.run) = Lead.digits := by
    rw [Apostrophe.offset, opensLiteral_eq mark.text_eq (Or.inr rfl)]
    simp [Lead.opens]
  rw [hopens, hlead]
  simp

/-- The apostrophes of a number are separators, and open no literal, exactly if the number does not
begin with a dot. Any apostrophe opens a literal exactly if the longest run of number characters before
it does not begin with a digit. -/
theorem opensLiteral_spec (text : List Char) :
    (∀ (placed : PlacedNumber text) (front back : List Char),
      placed.number = front ++ '\'' :: back →
        (opensLiteral (encode text) (byteLength (placed.before ++ front)) = false ↔
          placed.number.head? ≠ some '.')) ∧
    ∀ mark : Apostrophe text,
      opensLiteral (encode text) mark.offset = true ↔ ∀ c ∈ mark.run.head?, c.isDigit = false := by
  constructor
  · intro placed front back h
    obtain ⟨c, hc, -, hdigit⟩ := placed.isNumber.head?_eq
    have hopens := opensLiteral_offset (placed.apostrophe h)
    have hrun : (placed.apostrophe h).run.head? = some c := (placed.head?_of_eq_append h).trans hc
    change opensLiteral (encode text) (placed.apostrophe h).offset = false ↔ _
    rw [← Bool.not_eq_true, hopens, hrun, hc]
    simp [hdigit]
  · exact opensLiteral_offset

def prefixedCharText : List Char :=
  "n = ".toList ++ ['0', 'x', 'F', '\'', 'F', ' ', 'u', '8', '\'', 'a', '\'']

def hexNumber : PlacedNumber prefixedCharText where
  before := "n = ".toList
  number := ['0', 'x', 'F', '\'', 'F']
  after := [' ', 'u', '8', '\'', 'a', '\'']
  text_eq := rfl
  isNumber := .digit rfl (.char (Or.inl rfl) (.char (Or.inl rfl) (.separator rfl .nil)))
  begins _ hc := Option.some.inj hc ▸ rfl

def prefixedQuote : Apostrophe prefixedCharText where
  before := "n = ".toList ++ ['0', 'x', 'F', '\'', 'F', ' ']
  run := ['u', '8']
  after := ['a', '\'']
  text_eq := rfl
  isNumberChar_run := List.all_eq_true.mp rfl
  longest _ hc := Option.some.inj hc ▸ rfl

theorem opensLiteral_spec_prefixedCharText :
    opensLiteral (encode prefixedCharText) 7 = false ∧
      opensLiteral (encode prefixedCharText) 12 = true := by
  have hspec := opensLiteral_spec prefixedCharText
  have hnumber := hspec.1 hexNumber ['0', 'x', 'F'] ['F'] rfl
  have hquote := hspec.2 prefixedQuote
  exact ⟨hnumber.mpr (by decide), hquote.mpr fun _ hc => Option.some.inj hc ▸ rfl⟩

/-- A number that begins with a dot, and a comment behind it. -/
def dottedNumberText : List Char :=
  "double d = ".toList ++ ['.', '5', '\'', '0'] ++ "; // gone".toList

def dottedNumber : PlacedNumber dottedNumberText where
  before := "double d = ".toList
  number := ['.', '5', '\'', '0']
  after := "; // gone".toList
  text_eq := rfl
  isNumber := .dot rfl (.separator rfl .nil)
  begins _ hc := Option.some.inj hc ▸ rfl

/-- The separator of a number that begins with a dot opens a literal, which runs over the comment. -/
theorem exists_separator_opensLiteral :
    ∃ front back, dottedNumber.number = front ++ '\'' :: back ∧
      opensLiteral (encode dottedNumberText) (byteLength (dottedNumber.before ++ front)) = true ∧
      withoutComments dottedNumberText = dottedNumberText :=
  ⟨['.', '5'], ['0'], rfl, by decide +kernel, by decide +kernel⟩

end Reflector.Bytes
