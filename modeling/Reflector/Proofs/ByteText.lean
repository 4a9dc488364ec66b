import Mathlib.Data.List.Induction
import Reflector.Bytes.Text
import Reflector.Text.Blank
import Reflector.Text.Pattern
import Reflector.Text.Word
/-!
# Reading a text byte by byte

Where a character begins, the byte is the character itself if it is an ASCII one; all bytes of a wide
character are outside ASCII. So a scanner that passes over every byte outside ASCII passes over wide
characters as if they were read whole, wherever inside them it begins.
-/

namespace Reflector.Bytes

open Text

/-- The rest of the text begins at this byte. -/
def Begins (cs : List Char) (i : Nat) (rest : List Char) : Prop :=
  ∃ before, cs = before ++ rest ∧ byteLength before = i

/-- The character takes more than one byte; no byte of it is an ASCII character. -/
def IsWide (c : Char) : Prop :=
  128 ≤ c.toNat

instance (c : Char) : Decidable (IsWide c) :=
  inferInstanceAs (Decidable (128 ≤ c.toNat))

theorem length_encode (cs : List Char) : (encode cs).length = byteLength cs := by
  induction cs with
  | nil => rfl
  | cons c cs ih =>
    rw [encode, List.flatMap_cons, List.length_append, String.length_utf8EncodeChar, byteLength_cons]
    exact congrArg _ ih

theorem encode_append (a b : List Char) : encode (a ++ b) = encode a ++ encode b :=
  List.flatMap_append

theorem utf8Size_of_not_isWide {c : Char} (h : ¬ IsWide c) : c.utf8Size = 1 := by
  rw [Char.utf8Size_eq_one_iff, UInt32.le_iff_toNat_le]
  exact Nat.le_of_lt_succ (Nat.lt_of_not_le h)

theorem byteLength_pair {a b : Char} (ha : ¬ IsWide a) (hb : ¬ IsWide b) (cs : List Char) :
    byteLength (a :: b :: cs) = 2 + byteLength cs := by
  rw [byteLength_cons, byteLength_cons, utf8Size_of_not_isWide ha, utf8Size_of_not_isWide hb,
    ← Nat.add_assoc]

private theorem utf8EncodeChar_of_not_isWide {c : Char} (h : ¬ IsWide c) :
    (String.utf8EncodeChar c).map Char.ofUInt8 = [c] := by
  have hlt : c.val.toNat < 256 := by
    have := Nat.lt_of_not_le h
    exact Nat.lt_trans this (by decide)
  have hval : c.val.toUInt8.toUInt32 = c.val := by
    rw [← UInt32.toNat_inj, UInt8.toNat_toUInt32, UInt32.toNat_toUInt8, Nat.mod_eq_of_lt hlt]
  rw [String.utf8EncodeChar_eq_singleton (utf8Size_of_not_isWide h), List.map_singleton]
  exact congrArg (fun c => [c]) (Char.ext hval)

private theorem isWide_ofNat {n : Nat} (hle : 128 ≤ n) (hlt : n < 256) :
    IsWide (Char.ofUInt8 (UInt8.ofNat n)) := by
  have hn : (UInt8.ofNat n).toUInt32.toNat = n := by
    simpa using Nat.mod_eq_of_lt hlt
  change 128 ≤ (UInt8.ofNat n).toUInt32.toNat
  omega

private theorem isWide_of_mem_utf8EncodeChar {c : Char} (h : IsWide c) {b : UInt8}
    (hb : b ∈ String.utf8EncodeChar c) : IsWide (Char.ofUInt8 b) := by
  have hc : 128 ≤ c.val.toNat := h
  rw [String.utf8EncodeChar, if_neg (by omega)] at hb
  split at hb
  · simp only [List.mem_cons, List.not_mem_nil, or_false] at hb
    rcases hb with rfl | rfl <;> exact isWide_ofNat (by omega) (by omega)
  · split at hb
    · simp only [List.mem_cons, List.not_mem_nil, or_false] at hb
      rcases hb with rfl | rfl | rfl <;> exact isWide_ofNat (by omega) (by omega)
    · simp only [List.mem_cons, List.not_mem_nil, or_false] at hb
      rcases hb with rfl | rfl | rfl | rfl <;> exact isWide_ofNat (by omega) (by omega)

namespace IsWide

theorem ne {c d : Char} (h : IsWide c) (hd : ¬ IsWide d) : c ≠ d := by
  rintro rfl
  exact hd h

theorem not_of {p : Char → Bool} (hp : ∀ d, IsWide d → p d = false) {c : Char} (hc : p c = true) :
    ¬ IsWide c := by
  intro h
  rw [hp c h] at hc
  contradiction

theorem isNameChar {c : Char} (h : IsWide c) : isNameChar c = false := by
  refine Bool.eq_false_iff.mpr fun hc => ?_
  have hle : 128 ≤ c.toNat := h
  rcases toNat_cases_of_isNameChar hc with ((hc | hc) | hc) | rfl
  · omega
  · omega
  · omega
  · exact absurd h (by decide)

theorem isNameStart {c : Char} (h : IsWide c) : isNameStart c = false := by
  refine Bool.eq_false_iff.mpr fun hc => ?_
  have hname := isNameChar_of_isNameStart hc
  rw [h.isNameChar] at hname
  contradiction

theorem isGapChar {c : Char} (h : IsWide c) : isGapChar c = false := by
  simp [Text.isGapChar, h.ne (show ¬ IsWide ' ' by decide), h.ne (show ¬ IsWide '\t' by decide),
    h.ne (show ¬ IsWide '\n' by decide), h.ne (show ¬ IsWide '\x0c' by decide),
    h.ne (show ¬ IsWide '\r' by decide)]

end IsWide

/-- What the byte `d` tells of a character: it is the character, or both are outside ASCII. -/
def Shows (d c : Char) : Prop :=
  d = c ∨ IsWide c ∧ IsWide d

namespace Shows

variable {c d : Char}

/-- A function that does not tell wide characters apart has one value for both. -/
theorem congr {α : Type} {p : Char → α} (h : Shows d c)
    (hp : ∀ a b, IsWide a → IsWide b → p a = p b) : p d = p c := by
  rcases h with rfl | ⟨hc, hd⟩
  · rfl
  · exact hp d c hd hc

theorem any_eq {p : Char → Bool} (h : Shows d c) (hp : ∀ a, IsWide a → p a = false) : p d = p c :=
  h.congr fun a b ha hb => (hp a ha).trans (hp b hb).symm

theorem eq_iff (h : Shows d c) {a : Char} (ha : ¬ IsWide a) : d = a ↔ c = a :=
  Iff.of_eq (h.congr (p := (· = a)) fun _ _ hb hb' => propext (iff_of_false (hb.ne ha) (hb'.ne ha)))

theorem eq_of_not_isWide (h : Shows d c) (hc : ¬ IsWide c) : d = c :=
  (h.eq_iff hc).mpr rfl

end Shows

namespace Begins

variable {cs rest : List Char} {i : Nat}

theorem start (cs : List Char) : Begins cs 0 cs :=
  ⟨[], rfl, rfl⟩

theorem append {a : List Char} (h : Begins cs i (a ++ rest)) : Begins cs (i + byteLength a) rest := by
  obtain ⟨before, rfl, rfl⟩ := h
  exact ⟨before ++ a, by simp, by simp⟩

theorem cons {c : Char} (h : Begins cs i (c :: rest)) : Begins cs (i + c.utf8Size) rest := by
  simpa using append (a := [c]) h

theorem pair {a b : Char} (ha : ¬ IsWide a) (hb : ¬ IsWide b) (h : Begins cs i (a :: b :: rest)) :
    Begins cs (i + 2) rest := by
  have hrest := h.cons.cons
  rwa [utf8Size_of_not_isWide ha, utf8Size_of_not_isWide hb] at hrest

theorem length_eq (h : Begins cs i rest) : (encode cs).length = i + byteLength rest := by
  obtain ⟨before, rfl, rfl⟩ := h
  rw [length_encode, byteLength_append]

theorem suffix? (h : Begins cs i rest) : suffix? i cs = some rest := by
  obtain ⟨before, hcs, hi⟩ := h
  rw [Bytes.suffix?, splitAtByte?_eq_some_iff.mpr ⟨hcs, hi⟩]
  rfl

theorem slice? {a : List Char} (h : Begins cs i (a ++ rest)) :
    slice? i (i + byteLength a) cs = some a := by
  obtain ⟨before, rfl, rfl⟩ := h
  have hstop : splitAtByte? (byteLength before + byteLength a) (before ++ (a ++ rest)) =
      some (before ++ a, rest) :=
    splitAtByte?_eq_some_iff.mpr ⟨by simp, by simp⟩
  have hstart : Begins (before ++ a) (byteLength before) a := ⟨before, rfl, rfl⟩
  rw [Bytes.slice?, hstop]
  exact hstart.suffix?

private theorem at?_add (h : Begins cs i rest) (k : Nat) :
    at? (encode cs) (i + k) = at? (encode rest) k := by
  obtain ⟨before, rfl, rfl⟩ := h
  rw [at?, at?, encode_append, ← length_encode, List.getElem?_append_right (by omega)]
  simp

theorem at?_nil_add (h : Begins cs i []) (k : Nat) : at? (encode cs) (i + k) = none := by
  rw [h.at?_add]
  rfl

theorem at?_nil (h : Begins cs i []) : at? (encode cs) i = none :=
  h.at?_nil_add 0

theorem at?_of_not_isWide {c : Char} (h : Begins cs i (c :: rest)) (hc : ¬ IsWide c) :
    at? (encode cs) i = some c := by
  have hat := h.at?_add 0
  rw [Nat.add_zero] at hat
  rw [hat, at?, ← List.getElem?_map, encode, List.flatMap_cons, List.map_append,
    utf8EncodeChar_of_not_isWide hc]
  rfl

private theorem at?_of_isWide {c : Char} (h : Begins cs i (c :: rest)) (hc : IsWide c) {k : Nat}
    (hk : k < c.utf8Size) : ∃ d, at? (encode cs) (i + k) = some d ∧ IsWide d := by
  have hlt : k < (String.utf8EncodeChar c).length := by
    rwa [String.length_utf8EncodeChar]
  refine ⟨Char.ofUInt8 (String.utf8EncodeChar c)[k], ?_, ?_⟩
  · rw [h.at?_add, at?, encode, List.flatMap_cons, List.getElem?_append_left hlt,
      List.getElem?_eq_getElem hlt]
    rfl
  · exact isWide_of_mem_utf8EncodeChar hc (List.getElem_mem hlt)

theorem of_at? {c : Char} (hc : ¬ IsWide c) (h : at? (encode cs) i = some c) :
    ∃ rest, Begins cs i (c :: rest) := by
  induction cs generalizing i with
  | nil => simp [at?, encode] at h
  | cons d cs ih =>
    have hd := start (d :: cs)
    by_cases hi : i < d.utf8Size
    · by_cases hwide : IsWide d
      · obtain ⟨e, he, hwide'⟩ := hd.at?_of_isWide hwide hi
        rw [Nat.zero_add] at he
        obtain rfl := Option.some.inj (h.symm.trans he)
        exact absurd hwide' hc
      · rw [utf8Size_of_not_isWide hwide] at hi
        obtain rfl := Nat.lt_one_iff.mp hi
        obtain rfl := Option.some.inj (h.symm.trans (hd.at?_of_not_isWide hwide))
        exact ⟨cs, hd⟩
    · obtain ⟨k, rfl⟩ := Nat.exists_eq_add_of_le (Nat.le_of_not_lt hi)
      have hnext := hd.cons
      rw [Nat.zero_add] at hnext
      rw [hnext.at?_add] at h
      obtain ⟨rest, before, hcs, hbefore⟩ := ih h
      exact ⟨rest, d :: before, by rw [hcs]; rfl, by rw [byteLength_cons, hbefore]⟩

/-- Passing over bytes outside ASCII goes to the end of a wide character from anywhere in it. -/
theorem pass_wide {α : Type} {f : Nat → α} {c : Char} (h : Begins cs i (c :: rest)) (hc : IsWide c)
    (hf : ∀ j d, at? (encode cs) j = some d → IsWide d → f j = f (j + 1)) {k : Nat}
    (hk : k ≤ c.utf8Size) : f (i + k) = f (i + c.utf8Size) := by
  induction hn : c.utf8Size - k generalizing k with
  | zero => rw [Nat.le_antisymm hk (Nat.sub_eq_zero_iff_le.mp hn)]
  | succ n ih =>
    obtain ⟨d, hd, hwide⟩ := h.at?_of_isWide hc (show k < c.utf8Size by omega)
    rw [hf _ d hd hwide, Nat.add_assoc, ih (by omega) (by omega)]

theorem pass_splitFromByte {α : Type} {f : Nat → α}
    (hf : ∀ j d, at? (encode cs) j = some d → IsWide d → f j = f (j + 1)) (h : Begins cs i rest)
    {n : Nat} (hn : n ≤ byteLength rest) :
    f (i + n) = f (i + byteLength (splitFromByte n rest).1) := by
  fun_induction splitFromByte n rest generalizing i with
  | case1 => rfl
  | case2 n => exact absurd hn (Nat.not_succ_le_zero n)
  | case3 n c rest before after heq ih =>
    rw [byteLength_cons] at hn
    rw [byteLength_cons, ← Nat.add_assoc]
    rw [heq] at ih
    by_cases hle : c.utf8Size ≤ n + 1
    · have hstep := ih h.cons (Nat.sub_le_iff_le_add'.mpr hn)
      rwa [Nat.add_assoc, Nat.add_sub_cancel' hle] at hstep
    · have hwide : IsWide c := Decidable.not_not.mp fun hwide => by
        have := utf8Size_of_not_isWide hwide
        omega
      rw [Nat.sub_eq_zero_of_le (Nat.le_of_not_le hle), splitFromByte] at heq
      obtain ⟨rfl, -⟩ := Prod.mk.inj heq
      exact h.pass_wide hwide hf (Nat.le_of_not_le hle)

theorem pass {α : Type} {f : Nat → α} {kind : Char → Prop} (hkind : ∀ d, IsWide d → kind d)
    (hf : ∀ j d, at? (encode cs) j = some d → kind d → f j = f (j + 1)) {c : Char}
    (h : Begins cs i (c :: rest)) (hc : kind c) : f i = f (i + c.utf8Size) := by
  by_cases hwide : IsWide c
  · exact h.pass_wide hwide (fun j d hd hd' => hf j d hd (hkind d hd')) (Nat.zero_le _)
  · rw [utf8Size_of_not_isWide hwide, hf i c (h.at?_of_not_isWide hwide) hc]

/-- The byte at the beginning of a character is the character, or both are outside ASCII. -/
theorem at?_head {c : Char} (h : Begins cs i (c :: rest)) :
    ∃ d, at? (encode cs) i = some d ∧ Shows d c := by
  by_cases hc : IsWide c
  · obtain ⟨d, hd, hwide⟩ := h.at?_of_isWide hc c.utf8Size_pos
    exact ⟨d, hd, Or.inr ⟨hc, hwide⟩⟩
  · exact ⟨c, h.at?_of_not_isWide hc, Or.inl rfl⟩

theorem at?_last {c : Char} (h : Begins cs i (c :: rest)) :
    ∃ k d, c.utf8Size = k + 1 ∧ at? (encode cs) (i + k) = some d ∧ Shows d c := by
  by_cases hc : IsWide c
  · obtain ⟨k, hk⟩ := Nat.exists_eq_add_of_lt c.utf8Size_pos
    rw [Nat.zero_add] at hk
    obtain ⟨d, hd, hwide⟩ := h.at?_of_isWide hc (show k < c.utf8Size by omega)
    exact ⟨k, d, hk, hd, Or.inr ⟨hc, hwide⟩⟩
  · exact ⟨0, c, utf8Size_of_not_isWide hc, h.at?_of_not_isWide hc, Or.inl rfl⟩

theorem at?_eq_some_iff {a : Char} (ha : ¬ IsWide a) (h : Begins cs i rest) :
    at? (encode cs) i = some a ↔ rest.head? = some a := by
  cases rest with
  | nil => simp [h.at?_nil]
  | cons c rest =>
    obtain ⟨d, hd, hdc⟩ := h.at?_head
    rw [hd, List.head?_cons, Option.some_inj, Option.some_inj, hdc.eq_iff ha]

theorem at?_pair_iff {a b : Char} (ha : ¬ IsWide a) (hb : ¬ IsWide b) (h : Begins cs i rest) :
    at? (encode cs) i = some a ∧ at? (encode cs) (i + 1) = some b ↔
      ∃ later, rest = a :: b :: later := by
  rw [h.at?_eq_some_iff ha]
  constructor
  · rintro ⟨hhead, hnext⟩
    obtain ⟨tail, rfl⟩ := List.head?_eq_some_iff.mp hhead
    have htail := h.cons
    rw [utf8Size_of_not_isWide ha] at htail
    obtain ⟨later, rfl⟩ := List.head?_eq_some_iff.mp ((htail.at?_eq_some_iff hb).mp hnext)
    exact ⟨later, rfl⟩
  · rintro ⟨later, rfl⟩
    have htail := h.cons
    rw [utf8Size_of_not_isWide ha] at htail
    exact ⟨rfl, (htail.at?_eq_some_iff hb).mpr rfl⟩

theorem startsWith?_eq {a b : Char} (ha : ¬ IsWide a) (hb : ¬ IsWide b) (h : Begins cs i rest) :
    startsWith? a b (encode cs) i = some (after? [a, b] rest).isSome := by
  have hle : i ≤ (encode cs).length := by
    have := h.length_eq
    omega
  rw [Bytes.startsWith?, if_pos hle]
  congr 1
  rw [Bool.eq_iff_iff, Bool.and_eq_true, beq_iff_eq, beq_iff_eq, h.at?_pair_iff ha hb,
    Option.isSome_iff_exists]
  simp only [after?_eq_some_iff, List.cons_append, List.nil_append]

theorem startsWith?_here {a b : Char} (ha : ¬ IsWide a) (hb : ¬ IsWide b)
    (h : Begins cs i (a :: b :: rest)) : startsWith? a b (encode cs) i = some true := by
  have hafter : after? [a, b] (a :: b :: rest) = some rest := after?_eq_some_iff.mpr rfl
  rw [h.startsWith?_eq ha hb, hafter, Option.isSome_some]

theorem startsWith?_of_ne {a b : Char} (ha : ¬ IsWide a) (hb : ¬ IsWide b) (h : Begins cs i rest)
    (hne : ∀ later, rest ≠ a :: b :: later) : startsWith? a b (encode cs) i = some false := by
  have hnone : after? [a, b] rest = none := by
    rw [Option.eq_none_iff_forall_ne_some]
    exact fun later hlater => hne later (after?_eq_some_iff.mp hlater)
  rw [h.startsWith?_eq ha hb, hnone, Option.isSome_none]

end Begins

theorem left?_eq {cs before rest : List Char} (hcs : cs = before ++ rest) :
    ∃ left, left? (encode cs) (byteLength before) = some left ∧
      ∀ p : Char → Bool, (∀ d, IsWide d → p d = false) → left.any p = before.getLast?.any p := by
  cases before using List.reverseRecOn with
  | nil => exact ⟨none, rfl, fun _ _ => rfl⟩
  | append_singleton front c =>
    have hbegins : Begins cs (byteLength front) (c :: rest) := ⟨front, by simp [hcs], rfl⟩
    obtain ⟨k, d, hk, hd, hdc⟩ := hbegins.at?_last
    have hlength : byteLength (front ++ [c]) = byteLength front + k + 1 := by simp [hk, Nat.add_assoc]
    refine ⟨some d, ?_, fun p hp => ?_⟩
    · rw [left?, hlength, if_neg (Nat.succ_ne_zero _), Nat.add_sub_cancel, hd]
      rfl
    · rw [List.getLast?_concat, Option.any_some, Option.any_some, hdc.any_eq hp]

/-- The form in which the cases of a function that looks for a pair say that there is none. -/
theorem cons_ne_pair {a b c : Char} {rest : List Char}
    (h : ∀ later, c = a → rest = b :: later → False) (later : List Char) :
    c :: rest ≠ a :: b :: later := by
  intro hcons
  obtain ⟨hc, hrest⟩ := List.cons.inj hcons
  exact h later hc hrest

private theorem findPair?_of_at? {a b : Char} {bytes : List UInt8} {i : Nat} {c : Char}
    (h : at? bytes i = some c) :
    findPair? a b bytes i =
      if c = a ∧ at? bytes (i + 1) = some b then some i else findPair? a b bytes (i + 1) := by
  rw [findPair?.eq_def]
  split <;> simp_all

namespace Begins

variable {cs rest : List Char} {i : Nat} {a b : Char}

theorem findPair?_nil (h : Begins cs i []) : findPair? a b (encode cs) i = none := by
  have hnone := h.at?_nil
  rw [findPair?.eq_def]
  split <;> simp_all

theorem findPair?_here (ha : ¬ IsWide a) (hb : ¬ IsWide b) (h : Begins cs i (a :: b :: rest)) :
    findPair? a b (encode cs) i = some i := by
  obtain ⟨hat, hnext⟩ := (h.at?_pair_iff ha hb).mpr ⟨rest, rfl⟩
  rw [findPair?_of_at? hat, if_pos ⟨rfl, hnext⟩]

theorem findPair?_cons (ha : ¬ IsWide a) (hb : ¬ IsWide b) {c : Char} (h : Begins cs i (c :: rest))
    (hne : ∀ later, c :: rest ≠ a :: b :: later) :
    findPair? a b (encode cs) i = findPair? a b (encode cs) (i + c.utf8Size) := by
  by_cases hwide : IsWide c
  · refine h.pass_wide (f := findPair? a b (encode cs)) hwide (fun j d hd hd' => ?_) (Nat.zero_le _)
    rw [findPair?_of_at? hd, if_neg fun hpair => hd'.ne ha hpair.1]
  · have hc := h.at?_of_not_isWide hwide
    have hpair : ¬ (c = a ∧ at? (encode cs) (i + 1) = some b) := by
      rintro ⟨rfl, hnext⟩
      obtain ⟨later, hlater⟩ := (h.at?_pair_iff ha hb).mp ⟨hc, hnext⟩
      exact hne later hlater
    rw [findPair?_of_at? hc, if_neg hpair, utf8Size_of_not_isWide hwide]

end Begins

theorem skipWhile_eq {p : Char → Bool} (hp : ∀ c d, IsWide c → IsWide d → p c = p d)
    {cs rest : List Char} {i : Nat} (h : Begins cs i rest) :
    skipWhile p (encode cs) i = i + byteLength (rest.takeWhile p) := by
  induction rest generalizing i with
  | nil =>
    have hnone := h.at?_nil
    rw [skipWhile.eq_def]
    split <;> simp_all
  | cons c rest ih =>
    cases hc : p c with
    | true =>
      rw [List.takeWhile_cons_of_pos hc, byteLength_cons, ← Nat.add_assoc, ← ih h.cons]
      by_cases hwide : IsWide c
      · refine h.pass_wide hwide (fun j d hd hd' => ?_) (Nat.zero_le _)
        rw [skipWhile_of_at? hd, if_pos (hp d c hd' hwide ▸ hc)]
      · rw [utf8Size_of_not_isWide hwide, skipWhile_of_at? (h.at?_of_not_isWide hwide), if_pos hc]
    | false =>
      obtain ⟨d, hd, hdc⟩ := h.at?_head
      rw [skipWhile_of_at? hd, hdc.congr hp, hc, List.takeWhile_cons_of_neg (by simp [hc])]
      rfl

end Reflector.Bytes
