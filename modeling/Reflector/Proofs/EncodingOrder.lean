import Mathlib.Tactic.Conv
import Mathlib.Tactic.SplitIfs
/-!
# The order of encodings

Two texts compare by code points as their UTF-8 encodings compare by bytes. The first byte of a
character tells the length of its encoding, longer encodings begin with greater bytes, and among those
of one length the bytes are the digits of the code point.
-/

namespace Reflector.Text

/-- The first byte that differs decides; if this one does not differ, the rest does. -/
private theorem ofNat_cons_lt {a b : Nat} {xs ys : List UInt8} (hb : b < 256) (hle : a ≤ b)
    (h : a = b → xs < ys) : UInt8.ofNat a :: xs < UInt8.ofNat b :: ys := by
  rw [List.cons_lt_cons_iff]
  rcases Nat.lt_or_eq_of_le hle with hlt | rfl
  · left
    rw [UInt8.lt_iff_toNat_lt, UInt8.toNat_ofNat', UInt8.toNat_ofNat']
    omega
  · exact Or.inr ⟨rfl, h rfl⟩

private theorem utf8EncodeChar_append_lt {c d : Char} (h : c < d) (xs ys : List UInt8) :
    String.utf8EncodeChar c ++ xs < String.utf8EncodeChar d ++ ys := by
  have hlt : c.val.toNat < d.val.toNat := h
  have hmax : d.val.toNat < 1114112 := by
    rcases d.valid with hlow | hhigh <;> omega
  rw [String.utf8EncodeChar, String.utf8EncodeChar]
  generalize c.val.toNat = n at hlt
  generalize d.val.toNat = m at hlt hmax
  -- Where the lengths differ the first byte decides, and the later digits need not be looked at.
  split_ifs
  all_goals try (exfalso; omega)
  all_goals
    repeat
      refine ofNat_cons_lt (by omega) (by omega) fun _ => ?_
      try (exfalso; omega)

private theorem flatMap_utf8EncodeChar_lt {as bs : List Char} (h : as < bs) :
    as.flatMap String.utf8EncodeChar < bs.flatMap String.utf8EncodeChar := by
  induction as generalizing bs with
  | nil =>
    cases bs with
    | nil => exact absurd h (List.lt_irrefl _)
    | cons b bs =>
      have hne : String.utf8EncodeChar b ≠ [] := by
        rw [← List.length_pos_iff, String.length_utf8EncodeChar]
        exact b.utf8Size_pos
      obtain ⟨byte, bytes, hbyte⟩ := List.exists_cons_of_ne_nil hne
      rw [List.flatMap_nil, List.flatMap_cons, hbyte]
      exact List.nil_lt_cons _ _
  | cons a as ih =>
    cases bs with
    | nil => exact absurd h (List.not_lt_nil _)
    | cons b bs =>
      rw [List.flatMap_cons, List.flatMap_cons]
      rcases List.cons_lt_cons_iff.mp h with hab | ⟨rfl, htail⟩
      · exact utf8EncodeChar_append_lt hab _ _
      · exact List.append_left_lt (ih htail)

def utf8Bytes (s : String) : List UInt8 :=
  s.toUTF8.data.toList

private theorem utf8Bytes_eq_flatMap (s : String) :
    utf8Bytes s = s.toList.flatMap String.utf8EncodeChar := by
  conv_lhs => rw [← String.ofList_toList (s := s)]
  exact List.toList_data_toByteArray

theorem utf8Bytes_lt {s t : String} (h : s < t) : utf8Bytes s < utf8Bytes t := by
  rw [utf8Bytes_eq_flatMap, utf8Bytes_eq_flatMap]
  exact flatMap_utf8EncodeChar_lt h

end Reflector.Text
