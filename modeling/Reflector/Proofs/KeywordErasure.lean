import Reflector.Proofs.CommentRemoval
import Reflector.Proofs.Keyword
import Reflector.Proofs.Search

namespace Reflector.Source

open Text

theorem endsIdent_getLast? {w : List Char} (hne : w ≠ []) (hw : ∀ c ∈ w, isNameChar c = true) :
    endsIdent w.getLast? = false := by
  obtain ⟨c, hc⟩ := Option.isSome_iff_exists.mp (List.getLast?_isSome.mpr hne)
  rw [hc, endsIdent, Option.any_some, hw c (List.mem_of_getLast? hc), Bool.not_true]

/-- Every text is made of identifier runs with single characters of other kinds between them. -/
theorem identRun_induction {motive : List Char → Prop}
    (run : ∀ w, (∀ c ∈ w, isNameChar c = true) → motive w)
    (append_cons : ∀ w sep cs, (∀ c ∈ w, isNameChar c = true) → isNameChar sep = false →
      motive cs → motive (w ++ sep :: cs)) (cs : List Char) : motive cs := by
  induction hn : cs.length using Nat.strongRecOn generalizing cs with
  | ind n ih =>
    have hrun : ∀ c ∈ cs.takeWhile isNameChar, isNameChar c = true :=
      List.all_eq_true.mp List.all_takeWhile
    have htext := List.takeWhile_append_dropWhile (p := isNameChar) (l := cs)
    cases hd : cs.dropWhile isNameChar with
    | nil =>
      rw [hd, List.append_nil] at htext
      rw [← htext]
      exact run _ hrun
    | cons sep ys =>
      have hsep : isNameChar sep = false := by
        have hhead := List.head?_dropWhile_not isNameChar cs
        rw [hd] at hhead
        simpa using hhead
      have hlength := congrArg List.length htext
      rw [hd, List.length_append, List.length_cons] at hlength
      rw [← htext, hd]
      exact append_cons _ sep ys hrun hsep (ih ys.length (by omega) ys rfl)

theorem exists_append_of_mem_identRuns {w cs : List Char} (h : w ∈ identRuns cs) :
    ∃ a b, cs = a ++ (w ++ b) ∧ endsIdent a.getLast? = true ∧ endsIdent b.head? = true := by
  induction cs using identRun_induction with
  | run v hv =>
    rw [identRuns_of_forall hv, List.mem_singleton] at h
    exact ⟨[], [], by simp [h], rfl, rfl⟩
  | append_cons v sep cs hv hsep ih =>
    rw [identRuns_append_cons hsep, identRuns_of_forall hv, List.singleton_append,
      List.mem_cons] at h
    rcases h with rfl | h
    · exact ⟨[], sep :: cs, rfl, rfl, by simp [endsIdent, hsep]⟩
    · obtain ⟨a, b, rfl, ha, hb⟩ := ih h
      refine ⟨v ++ sep :: a, b, by simp, ?_, hb⟩
      rw [List.getLast?_append, List.getLast?_cons]
      cases hlast : a.getLast? with
      | none => simp [endsIdent, hsep]
      | some c => simpa [hlast] using ha

/-- Over a cut that no identifier runs across, a text does not come to begin with the keyword. -/
private theorem after?_append_eq_none {keyword : List Char} (hk : ∀ c ∈ keyword, isNameChar c = true)
    {a b : List Char} (ha : a ≠ []) (hseam : endsIdent a.getLast? = true ∨ endsIdent b.head? = true)
    (hm : after? keyword a = none) : after? keyword (a ++ b) = none := by
  rw [Option.eq_none_iff_forall_ne_some] at hm ⊢
  intro behind hbehind
  have htext : keyword ++ behind = a ++ b := (after?_eq_some_iff.mp hbehind).symm
  rcases List.append_eq_append_iff.mp htext with ⟨more, hmore, -⟩ | ⟨extra, hextra, rfl⟩
  · exact hm more (after?_eq_some_iff.mpr hmore)
  · cases extra with
    | nil => exact hm [] (after?_eq_some_iff.mpr (by simp [hextra]))
    | cons d extra =>
      -- the keyword would run across the cut
      have hd : isNameChar d = true := hk d (by simp [hextra])
      have hfront : endsIdent a.getLast? = false :=
        endsIdent_getLast? ha fun e he => hk e (hextra ▸ List.mem_append_left _ he)
      rw [hfront] at hseam
      simp [endsIdent, hd] at hseam

section

variable {keyword : List Char} (hne : keyword ≠ []) (hk : ∀ c ∈ keyword, isNameChar c = true)

include hne

theorem eraseFrom_nil (left : Option Char) : eraseFrom keyword left [] = [] := by
  rw [eraseFrom.eq_def]
  split
  · rename_i hm
    exact absurd (List.append_eq_nil_iff.mp (after?_eq_some_iff.mp hm).symm).1 hne
  · rfl

theorem withoutKeyword_self : withoutKeyword keyword keyword = [] := by
  have hm : after? keyword keyword = some [] := after?_eq_some_iff.mpr (List.append_nil _).symm
  have hends : (endsIdent none && endsIdent ([] : List Char).head?) = true := rfl
  rw [withoutKeyword, eraseFrom_of_after?_eq_some hne hm, if_pos hends, eraseFrom_nil hne]

include hk

private theorem after?_cons_of_not_isNameChar {c : Char} (hc : isNameChar c = false)
    (cs : List Char) :
    after? keyword (c :: cs) = none := by
  rw [Option.eq_none_iff_forall_ne_some]
  intro rest hrest
  obtain ⟨d, ds, rfl⟩ := List.exists_cons_of_ne_nil hne
  obtain ⟨rfl, -⟩ := List.cons.inj (after?_eq_some_iff.mp hrest)
  rw [hk c List.mem_cons_self] at hc
  contradiction

/-- A text may be cut where no identifier runs across the cut, and its parts erased apart. -/
private theorem eraseFrom_append (left : Option Char) (a b : List Char)
    (hseam : endsIdent (a.getLast?.or left) = true ∨ endsIdent b.head? = true) :
    eraseFrom keyword left (a ++ b) =
      eraseFrom keyword left a ++ eraseFrom keyword (a.getLast?.or left) b := by
  have hlast : endsIdent keyword.getLast? = false := endsIdent_getLast? hne hk
  fun_induction eraseFrom keyword left a with
  | case1 left a rest hm hnil => exact absurd hnil hne
  | case2 left a rest hm _ _ hends ih =>
    obtain rfl := after?_eq_some_iff.mp hm
    rw [getLast?_append_or hne] at hseam ⊢
    have hends' : (endsIdent left && endsIdent (rest ++ b).head?) = true := by
      cases rest with
      | nil =>
        rw [List.getLast?_nil, Option.none_or, hlast] at hseam
        simpa [endsIdent] using And.intro hends hseam
      | cons c rest => exact hends
    rw [List.append_assoc, eraseFrom_of_after?_eq_some hne (after?_append _ _), if_pos hends',
      ih hseam]
  | case3 left a rest hm _ _ hends ih =>
    obtain rfl := after?_eq_some_iff.mp hm
    rw [getLast?_append_or hne] at hseam ⊢
    have hends' : ¬ (endsIdent left && endsIdent (rest ++ b).head?) = true := by
      cases rest with
      | nil => simp_all [endsIdent]
      | cons c rest => exact hends
    rw [List.append_assoc, eraseFrom_of_after?_eq_some hne (after?_append _ _), if_neg hends',
      ih hseam, List.append_assoc]
  | case4 left hm => simp
  | case5 left c rest hm ih =>
    rw [getLast?_cons_or] at hseam ⊢
    have hlast : (c :: rest).getLast? = rest.getLast?.or (some c) := by
      rw [← getLast?_cons_or c rest none, Option.or_none]
    have hm' : after? keyword (c :: rest ++ b) = none :=
      after?_append_eq_none hk (List.cons_ne_nil c rest) (hlast ▸ hseam) hm
    rw [List.cons_append] at hm'
    rw [List.cons_append, eraseFrom_cons_of_after?_eq_none hm', ih hseam, List.cons_append]

private theorem eraseFrom_eq_withoutKeyword {left : Option Char} {cs : List Char}
    (h : endsIdent left = true ∨ endsIdent cs.head? = true) :
    eraseFrom keyword left cs = withoutKeyword keyword cs := by
  rw [withoutKeyword]
  cases hm : after? keyword cs with
  | some rest =>
    have hleft : endsIdent left = true := by
      refine h.resolve_right fun hhead => ?_
      obtain ⟨c, w, rfl⟩ := List.exists_cons_of_ne_nil hne
      rw [after?_eq_some_iff.mp hm, endsIdent] at hhead
      simp [hk c List.mem_cons_self] at hhead
    rw [eraseFrom_of_after?_eq_some hne hm, eraseFrom_of_after?_eq_some hne hm, hleft]
    rfl
  | none =>
    cases cs with
    | nil => rw [eraseFrom_nil hne, eraseFrom_nil hne]
    | cons c cs => rw [eraseFrom_cons_of_after?_eq_none hm, eraseFrom_cons_of_after?_eq_none hm]

theorem withoutKeyword_append {a b : List Char}
    (h : endsIdent a.getLast? = true ∨ endsIdent b.head? = true) :
    withoutKeyword keyword (a ++ b) = withoutKeyword keyword a ++ withoutKeyword keyword b := by
  rw [withoutKeyword, eraseFrom_append hne hk none a b (by rwa [Option.or_none]), Option.or_none,
    eraseFrom_eq_withoutKeyword hne hk h]
  rfl

theorem withoutKeyword_cons {c : Char} (hc : isNameChar c = false) (cs : List Char) :
    withoutKeyword keyword (c :: cs) = c :: withoutKeyword keyword cs := by
  rw [withoutKeyword, eraseFrom_cons_of_after?_eq_none (after?_cons_of_not_isNameChar hne hk hc cs),
    eraseFrom_eq_withoutKeyword hne hk (Or.inl (by simp [endsIdent, hc]))]

private theorem identRuns_withoutKeyword (cs : List Char) :
    identRuns (withoutKeyword keyword cs) =
      (identRuns cs).map fun run => if run = keyword then [] else run := by
  have hrun : ∀ w, (∀ c ∈ w, isNameChar c = true) →
      identRuns (withoutKeyword keyword w) = [if w = keyword then [] else w] := by
    intro w hw
    split
    · rename_i h
      rw [h, withoutKeyword_self hne]
      exact identRuns_of_forall (by simp)
    · rename_i h
      have hself : withoutKeyword keyword w = w :=
        withoutKeyword_eq_self hk (by simpa [identRuns_of_forall hw] using Ne.symm h)
      rw [hself, identRuns_of_forall hw]
  induction cs using identRun_induction with
  | run w hw => rw [hrun w hw, identRuns_of_forall hw, List.map_singleton]
  | append_cons w sep cs hw hsep ih =>
    have hseam : endsIdent (sep :: cs).head? = true := by simp [endsIdent, hsep]
    rw [withoutKeyword_append hne hk (Or.inr hseam), withoutKeyword_cons hne hk hsep,
      identRuns_append_cons hsep, identRuns_append_cons hsep, hrun w hw, ih,
      identRuns_of_forall hw]
    rfl

theorem not_mem_identRuns_withoutKeyword (cs : List Char) :
    keyword ∉ identRuns (withoutKeyword keyword cs) := by
  rw [identRuns_withoutKeyword hne hk, List.mem_map]
  rintro ⟨run, -, hrun⟩
  split at hrun
  · exact hne hrun.symm
  · contradiction

end

end Reflector.Source
