import Mathlib.Data.List.Infix
import Reflector.Declaration.Grammar

namespace Reflector

open Text

private theorem attributeEnd?_cons {c : Char} {cs : List Char} (h : ¬ [']', ']'] <+: c :: cs) :
    attributeEnd? (c :: cs) = (attributeEnd? cs).map fun (text, rest) => (c :: text, rest) := by
  apply attributeEnd?.eq_3
  rintro rest rfl rfl
  exact h ⟨rest, rfl⟩

theorem attributeEnd?_of_closes {text : List Char} (h : ClosesAttribute text) (rest : List Char) :
    attributeEnd? (text ++ rest) = some (text, rest) := by
  obtain ⟨inside, rfl, hfirst⟩ := h
  induction inside with
  | nil => rfl
  | cons c inside ih =>
    rw [List.cons_append, List.infix_cons_iff, not_or] at hfirst
    have hnext : ¬ [']', ']'] <+: c :: (inside ++ [']', ']'] ++ rest) := by
      intro hp
      apply hfirst.1
      cases inside with
      | nil => simp_all
      | cons d inside => simpa using hp
    rw [List.cons_append, List.cons_append, attributeEnd?_cons hnext, ih hfirst.2]
    rfl

theorem attributeEnd?_closes {cs text rest : List Char}
    (h : attributeEnd? cs = some (text, rest)) : ClosesAttribute text := by
  fun_induction attributeEnd? cs generalizing text rest with
  | case1 => contradiction
  | case2 more =>
    obtain ⟨rfl, rfl⟩ := Prod.mk.inj (Option.some.inj h)
    exact ⟨[], rfl, by decide⟩
  | case3 c cs hopen ih =>
    obtain ⟨⟨t, r⟩, ht, he⟩ := Option.map_eq_some_iff.mp h
    obtain ⟨rfl, rfl⟩ := Prod.mk.inj he
    have hcs := attributeEnd?_sound ht
    obtain ⟨inside, rfl, hfirst⟩ := ih ht
    refine ⟨c :: inside, rfl, ?_⟩
    rw [List.cons_append, List.infix_cons_iff, not_or]
    refine ⟨?_, hfirst⟩
    intro hp
    obtain ⟨rfl, hnext⟩ := List.cons_prefix_cons.mp hp
    cases inside with
    | nil => exact hopen (']' :: r) rfl hcs
    | cons d inside =>
      obtain ⟨rfl, -⟩ := List.cons_prefix_cons.mp hnext
      exact hopen (inside ++ [']', ']'] ++ r) rfl hcs

theorem TokenGap.append {a b : List Char} (ha : TokenGap a) (hb : TokenGap b) : TokenGap (a ++ b) := by
  induction ha with
  | nil => exact hb
  | blank hc _ ih => exact .blank hc ih
  | bracketed ht _ ih =>
    rw [List.append_assoc]
    exact .bracketed ht ih

/-- Neither white space nor an attribute comes next. -/
def StopsGap (rest : List Char) : Prop :=
  (∀ c ∈ rest.head?, isGapChar c = false) ∧ ¬ ['[', '['] <+: rest

private theorem gap?_of_stopsGap {rest : List Char} (h : StopsGap rest) :
    gap? rest = some ([], rest) := by
  obtain ⟨hblank, hopen⟩ := h
  cases rest with
  | nil => simp [gap?]
  | cons c cs =>
    rw [gap?]
    · rw [if_neg (by simp [hblank c rfl])]
    · rintro inside rfl rfl
      exact hopen ⟨inside, rfl⟩

theorem gap?_append {gap rest : List Char} (hg : TokenGap gap) (hr : StopsGap rest) :
    gap? (gap ++ rest) = some (gap, rest) := by
  induction hg with
  | nil => exact gap?_of_stopsGap hr
  | @blank c gap hc _ ih =>
    have hopen : c ≠ '[' := by
      rintro rfl
      exact absurd hc (by decide)
    rw [List.cons_append, gap?, if_pos hc, ih]
    · rfl
    · intro inside hbracket
      exact absurd hbracket hopen
  | @bracketed text gap ht _ ih =>
    have hread := attributeEnd?_of_closes ht (gap ++ rest)
    rw [List.append_assoc, List.cons_append, List.cons_append, gap?]
    split
    · rename_i heq
      rw [hread] at heq
      contradiction
    · rename_i heq
      rw [hread] at heq
      obtain ⟨rfl, rfl⟩ := Prod.mk.inj (Option.some.inj heq)
      rw [ih]
      rfl

theorem tokenGap_of_gap? {cs gap rest : List Char} (h : gap? cs = some (gap, rest)) :
    TokenGap gap ∧ StopsGap rest := by
  fun_induction gap? cs generalizing gap rest with
  | case1 => contradiction
  | case2 inside text more ha _ ih =>
    obtain ⟨⟨t, r⟩, ht, he⟩ := Option.map_eq_some_iff.mp h
    obtain ⟨rfl, rfl⟩ := Prod.mk.inj he
    obtain ⟨hgap, hstop⟩ := ih ht
    exact ⟨.bracketed (attributeEnd?_closes ha) hgap, hstop⟩
  | case3 c cs _ hc ih =>
    obtain ⟨⟨t, r⟩, ht, he⟩ := Option.map_eq_some_iff.mp h
    obtain ⟨rfl, rfl⟩ := Prod.mk.inj he
    obtain ⟨hgap, hstop⟩ := ih ht
    exact ⟨.blank hc hgap, hstop⟩
  | case4 c cs hopen hc =>
    obtain ⟨rfl, rfl⟩ := Prod.mk.inj (Option.some.inj h)
    refine ⟨.nil, by simpa using hc, ?_⟩
    rintro ⟨inside, heq⟩
    obtain ⟨rfl, rfl⟩ := List.cons.inj heq
    exact hopen inside rfl rfl
  | case5 =>
    obtain ⟨rfl, rfl⟩ := Prod.mk.inj (Option.some.inj h)
    exact ⟨.nil, by simp, by simp⟩

theorem Tokenizes.prepend {gap after text : List Char} {token : Token} {tokens : List Token}
    (hg : TokenGap gap) (h : Tokenizes after (token :: tokens) text) :
    Tokenizes after (token :: tokens) (gap ++ text) := by
  cases h with
  | cons hlead hstands hmore =>
    have hwhole := Tokenizes.cons (hg.append hlead) hstands hmore
    simpa only [List.append_assoc] using hwhole

theorem gap?_eq_some_iff {cs gap rest : List Char} :
    gap? cs = some (gap, rest) ↔ cs = gap ++ rest ∧ TokenGap gap ∧ StopsGap rest := by
  constructor
  · intro h
    exact ⟨gap?_sound h, tokenGap_of_gap? h⟩
  · rintro ⟨rfl, hg, hr⟩
    exact gap?_append hg hr

end Reflector
