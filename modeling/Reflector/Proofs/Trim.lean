import Mathlib.Data.List.DropRight
import Reflector.Text.Blank

namespace Reflector.Text

variable {p : Char → Bool}

theorem trimEnd_concat_of_neg {c : Char} (h : p c = false) (cs : List Char) :
    trimEnd p (cs ++ [c]) = cs ++ [c] :=
  List.rdropWhile_concat_neg p cs c (by simp [h])

theorem trimEnd_concat_of_pos {c : Char} (h : p c = true) (cs : List Char) :
    trimEnd p (cs ++ [c]) = trimEnd p cs :=
  List.rdropWhile_concat_pos p cs c h

theorem trimEnd_eq_nil {cs : List Char} (h : ∀ c ∈ cs, p c = true) : trimEnd p cs = [] :=
  List.rdropWhile_eq_nil_iff.mpr h

theorem trimEnd_append {front : List Char} (h : ∀ c ∈ front.getLast?, p c = false)
    (cs : List Char) : trimEnd p (front ++ cs) = front ++ trimEnd p cs := by
  induction cs using List.reverseRecOn with
  | nil =>
    have hfront : trimEnd p front = front := by
      apply List.rdropWhile_eq_self_iff.mpr
      intro hne
      simp [h _ (List.getLast?_eq_some_getLast hne)]
    rw [List.append_nil, hfront, trimEnd_nil, List.append_nil]
  | append_singleton cs c ih =>
    rw [← List.append_assoc]
    by_cases hc : p c = true
    · rw [trimEnd_concat_of_pos hc, trimEnd_concat_of_pos hc, ih]
    · have hc' : p c = false := by simpa using hc
      rw [trimEnd_concat_of_neg hc', trimEnd_concat_of_neg hc', List.append_assoc]

theorem trim_of_head? {cs : List Char} (h : ∀ c ∈ cs.head?, p c = false) :
    trim p cs = trimEnd p cs := by
  cases cs with
  | nil => rfl
  | cons c cs => rw [trim, List.dropWhile_cons_of_neg (by simp [h c rfl])]

end Reflector.Text
