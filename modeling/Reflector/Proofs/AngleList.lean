import Mathlib.Data.List.Infix
import Reflector.Declaration.Grammar
/-!
# Reading a template argument list

The reader keeps the two counts of the text it has read. While a list is open the count of its
brackets is positive, and one character lowers it by no more than one, so that it comes to zero at a
closing bracket and the list ends there.
-/

namespace Reflector

open Text

private theorem parenCount_concat (c : Char) (text : List Char) :
    parenCount (text ++ [c]) =
      parenCount text + (if c = '(' then 1 else 0) - (if c = ')' then 1 else 0) := by
  simp only [parenCount, List.count_append, List.count_singleton, beq_iff_eq]
  push_cast
  split <;> split <;> omega

private theorem countOutside_concat (c d : Char) (text : List Char) :
    countOutside c (text ++ [d]) =
      countOutside c text + if d = c ∧ parenCount text = 0 then 1 else 0 := by
  have hold : (List.range text.length).countP
        (fun i => (text ++ [d])[i]? == some c && parenCount ((text ++ [d]).take i) == 0) =
      countOutside c text := by
    apply List.countP_congr
    intro i hi
    have hlt : i < text.length := List.mem_range.mp hi
    rw [List.getElem?_append_left hlt, List.take_append_of_le_length (Nat.le_of_lt hlt)]
  rw [countOutside, List.length_append, List.length_singleton, List.range_succ, List.countP_append,
    hold]
  congr 1
  simp [List.countP_cons]

private theorem angleCount_concat (c : Char) (text : List Char) :
    angleCount (text ++ [c]) =
      angleCount text + (if c = '<' ∧ parenCount text = 0 then 1 else 0) -
        (if c = '>' ∧ parenCount text = 0 then 1 else 0) := by
  simp only [angleCount, countOutside_concat]
  split <;> split <;> push_cast <;> omega

/-- Behind an angle list whose text so far is `front`, the rest of the list. -/
structure ClosesAngles (front text : List Char) : Prop where
  closed : ∃ inside, text = inside ++ ['>']
  unbroken : ∀ c ∈ text, c ≠ ';' ∧ c ≠ '{' ∧ c ≠ '}'
  balanced : angleCount (front ++ text) = 0
  first : ∀ more, more ++ ['>'] <+: text → more ++ ['>'] ≠ text →
    angleCount (front ++ more ++ ['>']) ≠ 0

private theorem angleCount_concat_pos {front : List Char} (hopen : 0 < angleCount front) {c : Char}
    (h : angleCount (front ++ [c]) ≠ 0) : 0 < angleCount (front ++ [c]) := by
  have hstep := angleCount_concat c front
  by_cases hless : c = '<' ∧ parenCount front = 0
  · have hgreater : ¬ (c = '>' ∧ parenCount front = 0) := by simp [hless.1]
    rw [if_pos hless, if_neg hgreater] at hstep
    omega
  · rw [if_neg hless] at hstep
    split at hstep <;> omega

private theorem eq_of_angleCount_concat {front : List Char} (hopen : 0 < angleCount front) {c : Char}
    (h : angleCount (front ++ [c]) = 0) : c = '>' := by
  by_cases hgreater : c = '>'
  · exact hgreater
  · have hkept : ¬ (c = '>' ∧ parenCount front = 0) := fun hc => hgreater hc.1
    rw [angleCount_concat, if_neg hkept] at h
    split at h <;> omega

private theorem angles?_cons {front : List Char} (hopen : 0 < angleCount front) (c : Char)
    (cs : List Char) :
    angles? (angleCount front) (parenCount front) (c :: cs) =
      if c = ';' ∨ c = '{' ∨ c = '}' then none
      else if angleCount (front ++ [c]) = 0 then some ([c], cs)
      else (angles? (angleCount (front ++ [c])) (parenCount (front ++ [c])) cs).map
        fun (text, rest) => (c :: text, rest) := by
  have hne : angleCount front ≠ 0 := by omega
  rw [angleCount_concat, parenCount_concat]
  by_cases hparen : c = '('
  · subst hparen
    simp [angles?, hne]
  by_cases hclose : c = ')'
  · subst hclose
    simp [angles?, hne]
  by_cases hless : c = '<'
  · subst hless
    by_cases hp : parenCount front = 0
    · have hdeeper : angleCount front + 1 ≠ 0 := by omega
      simp [angles?, hp, hdeeper]
    · simp [angles?, hp, hne]
  by_cases hgreater : c = '>'
  · subst hgreater
    by_cases hp : parenCount front = 0
    · have hlast : angleCount front - 1 = 0 ↔ angleCount front = 1 := by omega
      simp [angles?, hp, hlast]
    · simp [angles?, hp, hne]
  simp [angles?, hparen, hclose, hless, hgreater, hne, or_assoc]

private theorem angles?_of_closes {front text : List Char} (hopen : 0 < angleCount front)
    (h : ClosesAngles front text) (rest : List Char) :
    angles? (angleCount front) (parenCount front) (text ++ rest) = some (text, rest) := by
  obtain ⟨⟨inside, rfl⟩, hunbroken, hbalanced, hfirst⟩ := h
  induction inside generalizing front with
  | nil =>
    rw [List.nil_append] at hbalanced
    rw [List.nil_append, List.cons_append, angles?_cons hopen, if_neg (by decide), if_pos hbalanced]
    rfl
  | cons c inside ih =>
    have hc := hunbroken c List.mem_cons_self
    have hstep : angleCount (front ++ [c]) ≠ 0 := by
      intro hzero
      obtain rfl := eq_of_angleCount_concat hopen hzero
      exact hfirst [] (by simp) (by simp) (by simpa using hzero)
    have hmore : ∀ more, more ++ ['>'] <+: inside ++ ['>'] → more ++ ['>'] ≠ inside ++ ['>'] →
        angleCount (front ++ [c] ++ more ++ ['>']) ≠ 0 := by
      intro more hp hne
      have hlater := hfirst (c :: more) (by simpa using hp) (by simpa using hne)
      simpa using hlater
    have hread := ih (angleCount_concat_pos hopen hstep)
      (fun d hd => hunbroken d (List.mem_cons_of_mem c hd)) (by simpa using hbalanced) hmore
    rw [List.cons_append, List.cons_append, angles?_cons hopen, if_neg (by simp [hc]), if_neg hstep,
      hread]
    rfl

private theorem closes_of_angles? {front cs text rest : List Char} (hopen : 0 < angleCount front)
    (h : angles? (angleCount front) (parenCount front) cs = some (text, rest)) :
    ClosesAngles front text := by
  induction cs generalizing front text with
  | nil => simp [angles?] at h
  | cons c cs ih =>
    rw [angles?_cons hopen] at h
    split at h
    · contradiction
    rename_i hunbroken
    have hc : c ≠ ';' ∧ c ≠ '{' ∧ c ≠ '}' := by simpa [not_or] using hunbroken
    split at h
    · rename_i hzero
      obtain ⟨rfl, rfl⟩ := Prod.mk.inj (Option.some.inj h)
      obtain rfl := eq_of_angleCount_concat hopen hzero
      refine ⟨⟨[], rfl⟩, by simp, hzero, ?_⟩
      intro more hp hne
      exact absurd (hp.eq_of_length_le (by simp)) hne
    · rename_i hstep
      obtain ⟨⟨t, r⟩, ht, he⟩ := Option.map_eq_some_iff.mp h
      obtain ⟨rfl, rfl⟩ := Prod.mk.inj he
      obtain ⟨⟨inside, rfl⟩, hmore, hbalanced, hfirst⟩ := ih (angleCount_concat_pos hopen hstep) ht
      refine ⟨⟨c :: inside, rfl⟩, ?_, by simpa using hbalanced, ?_⟩
      · intro d hd
        rcases List.mem_cons.mp hd with rfl | hd
        · exact hc
        · exact hmore d hd
      · intro more hp hne
        cases more with
        | nil =>
          obtain ⟨rfl, -⟩ := List.cons_prefix_cons.mp hp
          simpa using hstep
        | cons d more =>
          obtain ⟨rfl, hrest⟩ := List.cons_prefix_cons.mp hp
          have hlater := hfirst more hrest (fun heq => hne (by rw [List.cons_append, heq]))
          simpa using hlater

private theorem isAngleList_cons_iff {text : List Char} :
    IsAngleList ('<' :: text) ↔ ClosesAngles ['<'] text := by
  constructor
  · rintro ⟨⟨inside, hinside⟩, hunbroken, hbalanced, hfirst⟩
    refine ⟨⟨inside, by simpa using hinside⟩, ?_, hbalanced, ?_⟩
    · exact fun c hc => hunbroken c (List.mem_cons_of_mem _ hc)
    · intro more hp hne
      exact hfirst ('<' :: more) (by simpa using hp) (by simpa using hne)
  · rintro ⟨⟨inside, rfl⟩, hunbroken, hbalanced, hfirst⟩
    refine ⟨⟨inside, rfl⟩, ?_, hbalanced, ?_⟩
    · intro c hc
      rcases List.mem_cons.mp hc with rfl | hc
      · decide
      · exact hunbroken c hc
    · intro front hp hne
      cases front with
      | nil => simp at hp
      | cons d front =>
        obtain ⟨rfl, hrest⟩ := List.cons_prefix_cons.mp hp
        exact hfirst front hrest (fun heq => hne (by rw [List.cons_append, heq]))

theorem angles?_eq_some_iff {cs text rest : List Char} :
    angles? 1 0 cs = some (text, rest) ↔ cs = text ++ rest ∧ IsAngleList ('<' :: text) := by
  have hopen : 0 < angleCount ['<'] := by decide
  rw [isAngleList_cons_iff]
  constructor
  · intro h
    exact ⟨(angles?_sound h).2, closes_of_angles? hopen h⟩
  · rintro ⟨rfl, h⟩
    exact angles?_of_closes hopen h rest

end Reflector
