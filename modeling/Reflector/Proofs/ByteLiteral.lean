import Reflector.Bytes.Literal
import Reflector.Proofs.ByteText
import Reflector.Source.Comment
/-!
# Literals by byte index

At a quote the walk back over the bytes decides what the lead of the text before decides, and the byte
search finds the end where the literal ends. An escape may land inside a wide character; the bytes that
are left of it are passed over.
-/

namespace Reflector.Bytes

open Text Source

private theorem IsWide.isNumberChar {c : Char} (h : IsWide c) : isNumberChar c = false := by
  have hname : (c.isAlphanum || c == '_') = false := h.isNameChar
  simp [Source.isNumberChar, hname, h.ne (show ¬ IsWide '\'' by decide),
    h.ne (show ¬ IsWide '.' by decide)]

theorem IsWide.not_quote {c : Char} (h : IsWide c) : ¬ (c = '"' ∨ c = '\'') := by
  rintro (rfl | rfl)
  · exact absurd h (by decide)
  · exact absurd h (by decide)

/-- The walk back stops where the run of number characters begins, and its first byte tells the lead. -/
private theorem numberStart_spec {cs : List Char} (before : List Char) {rest : List Char}
    (hcs : cs = before ++ rest) :
    match Lead.none.after before with
    | .none => numberStart (encode cs) (byteLength before) = byteLength before
    | .digits => numberStart (encode cs) (byteLength before) < byteLength before ∧
        (at? (encode cs) (numberStart (encode cs) (byteLength before))).any Char.isDigit = true
    | .word => numberStart (encode cs) (byteLength before) < byteLength before ∧
        (at? (encode cs) (numberStart (encode cs) (byteLength before))).any Char.isDigit = false := by
  induction before using List.reverseRecOn generalizing rest with
  | nil => rfl
  | append_singleton before c ih =>
    have hbegins : Begins cs (byteLength before) (c :: rest) := ⟨before, by simp [hcs], rfl⟩
    obtain ⟨k, d, hk, hd, hdc⟩ := hbegins.at?_last
    have hstart : numberStart (encode cs) (byteLength (before ++ [c])) =
        if isNumberChar d then numberStart (encode cs) (byteLength before + k)
        else byteLength before + k + 1 := by
      rw [byteLength_append, byteLength_cons, byteLength_nil, Nat.add_zero, hk, ← Nat.add_assoc,
        numberStart, hd, Option.any_some]
    rw [Lead.after_append, Lead.after_cons, Lead.after_nil]
    have hclass : isNumberChar d = isNumberChar c := hdc.any_eq fun _ => IsWide.isNumberChar
    cases hc : isNumberChar c with
    | false =>
      rw [Lead.next_of_not_isNumberChar hc, hstart, hclass, hc]
      simp only [byteLength_append, byteLength_cons, byteLength_nil, hk]
      rfl
    | true =>
      have hwide : ¬ IsWide c := IsWide.not_of (fun _ => IsWide.isNumberChar) hc
      obtain rfl : d = c := hdc.eq_of_not_isWide hwide
      obtain rfl : k = 0 := by
        rw [utf8Size_of_not_isWide hwide] at hk
        omega
      have hlength : byteLength (before ++ [d]) = byteLength before + 1 := by simp [hk]
      rw [hc, if_pos rfl, Nat.add_zero] at hstart
      rw [Nat.add_zero] at hd
      have ih := ih (show cs = before ++ d :: rest by simp [hcs])
      rw [hstart, hlength]
      cases hlead : Lead.none.after before with
      | none =>
        rw [hlead] at ih
        cases hdigit : d.isDigit <;> simp [Lead.next, hc, hdigit, ih, hd]
      | digits =>
        rw [hlead] at ih
        simpa [Lead.next, hc] using And.intro (Nat.lt_succ_of_lt ih.1) ih.2
      | word =>
        rw [hlead] at ih
        simpa [Lead.next, hc] using And.intro (Nat.lt_succ_of_lt ih.1) ih.2

/-- A quote opens a literal for the bytes when it does for the lead of the text before. -/
theorem opensLiteral_eq {cs before rest : List Char} {c : Char} (hcs : cs = before ++ c :: rest)
    (hc : c = '"' ∨ c = '\'') :
    opensLiteral (encode cs) (byteLength before) = (Lead.none.after before).opens c := by
  have hbegins : Begins cs (byteLength before) (c :: rest) := ⟨before, hcs, rfl⟩
  rcases hc with rfl | rfl
  · rw [opensLiteral, hbegins.at?_of_not_isWide (by decide)]
    rfl
  · have hstart := numberStart_spec before hcs
    rw [opensLiteral, hbegins.at?_of_not_isWide (by decide)]
    cases hlead : Lead.none.after before with
    | none =>
      rw [hlead] at hstart
      simp [hstart, Lead.opens]
    | digits =>
      rw [hlead] at hstart
      simp [hstart, Lead.opens]
    | word =>
      rw [hlead] at hstart
      simp [hstart, Lead.opens]

private theorem literalEnd_of_at? {quote : Char} {bytes : List UInt8} {i : Nat} {c : Char}
    (h : at? bytes i = some c) :
    literalEnd quote bytes i =
      if c = '\\' then literalEnd quote bytes (i + 2)
      else if c = '\n' then i
      else if c = quote then i + 1
      else literalEnd quote bytes (i + 1) := by
  rw [literalEnd.eq_def]
  split <;> simp_all

theorem literalEnd_eq {quote : Char} (hquote : ¬ IsWide quote) {cs rest : List Char} {i : Nat}
    (h : Begins cs i rest) :
    literalEnd quote (encode cs) i = i + byteLength (splitLiteral quote rest).1 := by
  have hend : ∀ {j}, at? (encode cs) j = none → literalEnd quote (encode cs) j = (encode cs).length := by
    intro j hj
    rw [literalEnd.eq_def]
    split <;> simp_all
  have hbackslash : ¬ IsWide '\\' := by decide
  have hpass : ∀ j d, at? (encode cs) j = some d → d ≠ '\\' ∧ d ≠ '\n' ∧ d ≠ quote →
      literalEnd quote (encode cs) j = literalEnd quote (encode cs) (j + 1) := by
    rintro j d hd ⟨hb, hn, hq⟩
    rw [literalEnd_of_at? hd, if_neg hb, if_neg hn, if_neg hq]
  have hwide : ∀ d, IsWide d → d ≠ '\\' ∧ d ≠ '\n' ∧ d ≠ quote := fun d hd =>
    ⟨hd.ne hbackslash, hd.ne (by decide), hd.ne hquote⟩
  fun_induction splitLiteral quote rest generalizing i with
  | case1 =>
    rw [hend h.at?_nil, h.length_eq]
  | case2 =>
    have hnext : Begins cs (i + 1) [] := h.cons
    rw [literalEnd_of_at? (h.at?_of_not_isWide hbackslash), if_pos rfl, hend (hnext.at?_nil_add 1),
      h.length_eq]
  | case3 c rest literal after he ih =>
    have hc : Begins cs (i + 1) (c :: rest) := h.cons
    have hskip : literalEnd quote (encode cs) (i + 2) =
        literalEnd quote (encode cs) (i + 1 + c.utf8Size) := by
      by_cases hcwide : IsWide c
      · exact hc.pass_wide hcwide (fun j d hd hd' => hpass j d hd (hwide d hd')) c.utf8Size_pos
      · rw [utf8Size_of_not_isWide hcwide]
    rw [literalEnd_of_at? (h.at?_of_not_isWide hbackslash), if_pos rfl, hskip, ih hc.cons, he]
    simp only [byteLength_cons, ← Nat.add_assoc]
    rfl
  | case4 rest =>
    rw [literalEnd_of_at? (h.at?_of_not_isWide (by decide)), if_neg (by decide), if_pos rfl]
    rfl
  | case5 rest hlone hesc hn =>
    have hb : quote ≠ '\\' := by
      rintro rfl
      cases rest with
      | nil => exact hlone rfl rfl
      | cons d rest => exact hesc d rest rfl rfl
    rw [literalEnd_of_at? (h.at?_of_not_isWide hquote), if_neg hb, if_neg hn, if_pos rfl,
      byteLength_cons, utf8Size_of_not_isWide hquote]
    rfl
  | case6 c rest hlone hesc hn hq literal after he ih =>
    have hb : c ≠ '\\' := by
      rintro rfl
      cases rest with
      | nil => exact hlone rfl rfl
      | cons d rest => exact hesc d rest rfl rfl
    rw [h.pass hwide hpass ⟨hb, hn, hq⟩, ih h.cons, he, byteLength_cons, Nat.add_assoc]

theorem opensLiteral_iff {cs before rest : List Char} {c : Char} (hcs : cs = before ++ c :: rest) :
    ((c = '"' ∨ c = '\'') ∧ opensLiteral (encode cs) (byteLength before) = true) ↔
      (Lead.none.after before).opens c = true := by
  constructor
  · rintro ⟨hc, hopens⟩
    rwa [opensLiteral_eq hcs hc] at hopens
  · intro hopens
    have hc : c = '"' ∨ c = '\'' := by
      simp only [Lead.opens, Bool.or_eq_true, Bool.and_eq_true, beq_iff_eq] at hopens
      exact hopens.imp_right And.left
    exact ⟨hc, by rwa [opensLiteral_eq hcs hc]⟩

theorem literalEnd_of_opens {cs before rest : List Char} {c : Char} (hcs : cs = before ++ c :: rest)
    (hc : (Lead.none.after before).opens c = true) :
    at? (encode cs) (byteLength before) = some c ∧
      literalEnd c (encode cs) (byteLength before + 1) =
        byteLength (before ++ c :: (splitLiteral c rest).1) := by
  have hwide : ¬ IsWide c := by
    rcases ((opensLiteral_iff hcs).mpr hc).1 with rfl | rfl <;> decide
  have hbegins : Begins cs (byteLength before) (c :: rest) := ⟨before, hcs, rfl⟩
  have hnext : Begins cs (byteLength before + 1) rest := by
    rw [← utf8Size_of_not_isWide hwide]
    exact hbegins.cons
  refine ⟨hbegins.at?_of_not_isWide hwide, ?_⟩
  rw [literalEnd_eq hwide hnext, byteLength_append, byteLength_cons, utf8Size_of_not_isWide hwide,
    Nat.add_assoc]

end Reflector.Bytes
