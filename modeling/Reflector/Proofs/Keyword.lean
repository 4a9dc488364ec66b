import Reflector.Proofs.Search
import Reflector.Source.Keyword
/-!
# Identifier runs

A text falls into its longest runs of identifier characters. A word of such characters that stands
alone is one of the runs, and one that stands anywhere is part of a run; a keyword that is no run is
therefore never erased.
-/

namespace Reflector.Source

open Text

/-- The longest runs of identifier characters of a text, with an empty run between two neighbours
that are none. -/
def identRuns (cs : List Char) : List (List Char) :=
  cs.splitOnP fun c => !isNameChar c

variable {w : List Char}

theorem identRuns_of_forall (hw : ∀ c ∈ w, isNameChar c = true) : identRuns w = [w] := by
  apply List.splitOnP_eq_singleton
  intro c hc
  rw [hw c hc]
  rfl

theorem identRuns_append_cons {sep : Char} (h : isNameChar sep = false) (xs ys : List Char) :
    identRuns (xs ++ sep :: ys) = identRuns xs ++ identRuns ys :=
  List.splitOnP_append_cons xs ys (by simp [h])

theorem mem_identRuns {a b : List Char} (hw : ∀ c ∈ w, isNameChar c = true)
    (ha : endsIdent a.getLast? = true) (hb : endsIdent b.head? = true) :
    w ∈ identRuns (a ++ (w ++ b)) := by
  have hright : w ∈ identRuns (w ++ b) := by
    cases b with
    | nil => simp [identRuns_of_forall hw]
    | cons sep b =>
      have hsep : isNameChar sep = false := by simpa [endsIdent] using hb
      simp [identRuns_append_cons hsep, identRuns_of_forall hw]
  rcases List.eq_nil_or_concat a with rfl | ⟨a, sep, rfl⟩
  · exact hright
  · have hsep : isNameChar sep = false := by simpa [endsIdent] using ha
    rw [List.concat_eq_append, List.append_assoc, List.singleton_append,
      identRuns_append_cons hsep]
    exact List.mem_append_right _ hright

private theorem infix_append_cons {sep : Char} (h : sep ∉ w) {xs ys : List Char}
    (hw : w <:+: xs ++ sep :: ys) : w <:+: xs ∨ w <:+: ys := by
  have hempty : ∀ v, sep ∉ v → v <+: sep :: ys → v = [] := by
    intro v hv hp
    cases v with
    | nil => rfl
    | cons c v =>
      obtain ⟨rfl, -⟩ := List.cons_prefix_cons.mp hp
      exact absurd List.mem_cons_self hv
  rcases List.infix_append_iff.mp hw with hxs | hys | ⟨u, v, rfl, hu, hv⟩
  · exact Or.inl hxs
  · rcases List.infix_cons_iff.mp hys with hp | hi
    · rw [hempty w h hp]
      exact Or.inl (List.nil_infix)
    · exact Or.inr hi
  · have hnil := hempty v (fun hm => h (List.mem_append_right u hm)) hv
    rw [hnil, List.append_nil]
    exact Or.inl hu.isInfix

theorem exists_identRun_of_infix (hw : ∀ c ∈ w, isNameChar c = true) {cs : List Char}
    (h : w <:+: cs) : ∃ run ∈ identRuns cs, w <:+: run := by
  induction hn : cs.length using Nat.strongRecOn generalizing cs with
  | ind n ih =>
    rw [← List.takeWhile_append_dropWhile (p := isNameChar) (l := cs)] at h ⊢
    have hrun : ∀ c ∈ cs.takeWhile isNameChar, isNameChar c = true :=
      List.all_eq_true.mp List.all_takeWhile
    have hlength := (List.dropWhile_sublist isNameChar (l := cs)).length_le
    cases hd : cs.dropWhile isNameChar with
    | nil =>
      rw [hd, List.append_nil] at h
      exact ⟨_, by simp [identRuns_of_forall hrun], h⟩
    | cons sep ys =>
      have hsep : isNameChar sep = false := by
        have hhead := List.head?_dropWhile_not isNameChar cs
        rw [hd] at hhead
        simpa using hhead
      rw [hd] at h hlength
      rw [identRuns_append_cons hsep, identRuns_of_forall hrun]
      have hout : sep ∉ w := fun hm => by simp [hw sep hm] at hsep
      rcases infix_append_cons hout h with hxs | hys
      · exact ⟨_, List.mem_cons_self, hxs⟩
      · have hshorter : ys.length < n := by
          rw [List.length_cons] at hlength
          omega
        obtain ⟨run, hmem, hinfix⟩ := ih ys.length hshorter hys rfl
        exact ⟨run, List.mem_append_right _ hmem, hinfix⟩

theorem eraseFrom_cons_of_after?_eq_none {keyword : List Char} {c : Char} {cs : List Char}
    (h : after? keyword (c :: cs) = none) (left : Option Char) :
    eraseFrom keyword left (c :: cs) = c :: eraseFrom keyword (some c) cs := by
  rw [eraseFrom.eq_def]
  split
  · rename_i hs
    rw [h] at hs
    contradiction
  · rfl

theorem eraseFrom_of_after?_eq_some {keyword cs rest : List Char} (hk : keyword ≠ [])
    (h : after? keyword cs = some rest) (left : Option Char) :
    eraseFrom keyword left cs =
      if endsIdent left && endsIdent rest.head? then eraseFrom keyword keyword.getLast? rest
      else keyword ++ eraseFrom keyword keyword.getLast? rest := by
  rw [eraseFrom.eq_def]
  split
  · rename_i hs
    rw [h] at hs
    obtain rfl := Option.some.inj hs
    rw [dif_neg hk]
  · rename_i hs
    rw [h] at hs
    contradiction

/-- Nothing is erased where the keyword never stands as a word of its own. -/
private theorem eraseFrom_eq_self {keyword cs : List Char} {left : Option Char}
    (h : ∀ a b, cs = a ++ (keyword ++ b) → endsIdent (a.getLast?.or left) = true →
      endsIdent b.head? = false) : eraseFrom keyword left cs = cs := by
  fun_induction eraseFrom keyword left cs with
  | case1 => rfl
  | case2 left cs rest hm hk _ hends ih =>
    have hcs := after?_eq_some_iff.mp hm
    rw [Bool.and_eq_true] at hends
    have hfree := h [] rest hcs (by simpa using hends.1)
    rw [hends.2] at hfree
    contradiction
  | case3 left cs rest hm hk _ hends ih =>
    have hcs := after?_eq_some_iff.mp hm
    have hrest : eraseFrom keyword keyword.getLast? rest = rest := by
      apply ih
      intro a b hab hleft
      apply h (keyword ++ a) b
      · rw [hcs, hab, List.append_assoc]
      · rwa [getLast?_append_or hk]
    rw [hrest, hcs]
  | case4 => rfl
  | case5 left c rest hm ih =>
    rw [ih]
    intro a b hab hleft
    apply h (c :: a) b
    · rw [hab, List.cons_append]
    · rwa [getLast?_cons_or]

theorem withoutKeyword_eq_self {keyword cs : List Char}
    (hk : ∀ c ∈ keyword, isNameChar c = true) (h : keyword ∉ identRuns cs) :
    withoutKeyword keyword cs = cs := by
  apply eraseFrom_eq_self
  intro a b hcs ha
  rw [Option.or_none] at ha
  cases hb : endsIdent b.head? with
  | false => rfl
  | true =>
    rw [hcs] at h
    exact absurd (mem_identRuns hk ha hb) h

end Reflector.Source
