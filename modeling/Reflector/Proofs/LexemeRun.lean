import Reflector.Proofs.KeywordErasure

namespace Reflector.Source

open Text

private theorem isNumberChar_of_isNameChar {c : Char} (h : isNameChar c = true) :
    isNumberChar c = true := by
  simp only [isNameChar, Bool.or_eq_true] at h
  simp only [isNumberChar, Bool.or_eq_true]
  exact Or.inl (Or.inl h)

private theorem isDigit_of_not_isNameChar {c : Char} (h : isNameChar c = false) :
    c.isDigit = false := by
  simp only [isNameChar, Char.isAlphanum, Bool.or_eq_false_iff] at h
  exact h.1.2

namespace Lead

private theorem after_of_ne_none {lead : Lead} (h : lead ≠ none) {cs : List Char}
    (hcs : ∀ c ∈ cs, isNumberChar c = true) : lead.after cs = lead := by
  induction cs with
  | nil => rfl
  | cons c cs ih =>
    obtain ⟨hc, hcs⟩ := List.forall_mem_cons.mp hcs
    have hnext : lead.next c = lead := by cases lead <;> simp_all [next]
    rw [after_cons, hnext, ih hcs]

theorem none_after_cons {c : Char} {cs : List Char} (hcs : ∀ d ∈ c :: cs, isNumberChar d = true) :
    none.after (c :: cs) = if c.isDigit then digits else word := by
  obtain ⟨hc, hcs⟩ := List.forall_mem_cons.mp hcs
  have hnext : none.next c = if c.isDigit then digits else word := by simp [next, hc]
  have hne : (if c.isDigit then digits else word) ≠ none := by split <;> simp
  rw [after_cons, hnext, after_of_ne_none hne hcs]

/-- Behind a character that goes on with no number, what stood before does not count. -/
private theorem after_eq_after {cs : List Char} (h : ∃ c ∈ cs, isNumberChar c = false)
    (lead lead' : Lead) :
    lead.after cs = lead'.after cs := by
  obtain ⟨c, hmem, hc⟩ := h
  obtain ⟨a, b, rfl⟩ := List.append_of_mem hmem
  rw [after_append, after_append, after_cons, after_cons, next_of_not_isNumberChar hc,
    next_of_not_isNumberChar hc]

/-- As far as the number at the head of a text goes, its apostrophes separate digits behind either
lead or behind none of the two. -/
def AgreeOn (lead lead' : Lead) (cs : List Char) : Prop :=
  ∀ number rest, cs = number ++ '\'' :: rest → (∀ c ∈ number, isNumberChar c = true) →
    (lead.after number = digits ↔ lead'.after number = digits)

namespace AgreeOn

variable {lead lead' : Lead}

theorem refl (lead : Lead) (cs : List Char) : AgreeOn lead lead cs :=
  fun _ _ _ _ => Iff.rfl

theorem opens {c : Char} {cs : List Char} (h : AgreeOn lead lead' (c :: cs)) :
    lead'.opens c = lead.opens c := by
  by_cases hc : c = '\''
  · subst hc
    have hdigits : lead = digits ↔ lead' = digits := h [] cs rfl (by simp)
    have hne : (lead' != digits) = (lead != digits) := by
      rw [Bool.eq_iff_iff, bne_iff_ne, bne_iff_ne, ne_eq, ne_eq, hdigits]
    simp [Lead.opens, hne]
  · have hne : (c == '\'') = false := by simpa using hc
    simp [Lead.opens, hne]

theorem after {text rest : List Char} (h : AgreeOn lead lead' (text ++ rest)) :
    AgreeOn (lead.after text) (lead'.after text) rest := by
  by_cases htext : ∀ c ∈ text, isNumberChar c = true
  · rintro number later rfl hnumber
    have hboth := h (text ++ number) later (by simp) (List.forall_mem_append.mpr ⟨htext, hnumber⟩)
    rwa [after_append, after_append] at hboth
  · have hbreak : ∃ c ∈ text, isNumberChar c = false := by simpa using htext
    rw [after_eq_after hbreak lead lead']
    exact refl _ _

/-- The leads go on agreeing behind a word that only the first has read, unless the word begins a
number with separators in it. -/
theorem erase {word rest : List Char} (h : AgreeOn lead lead' (word ++ rest))
    (hword : ∀ c ∈ word, isNameChar c = true) (hends : endsIdent rest.head? = true)
    (hnumber : word.head?.any Char.isDigit = true → ∀ number later,
      (∀ c ∈ number, isNumberChar c = true) → rest ≠ number ++ '\'' :: later) :
    AgreeOn (lead.after word) lead' rest := by
  rintro number later rfl hchars
  have hword' : ∀ c ∈ word, isNumberChar c = true := fun c hc =>
    isNumberChar_of_isNameChar (hword c hc)
  have hboth := h (word ++ number) later (by simp) (List.forall_mem_append.mpr ⟨hword', hchars⟩)
  rw [after_append, after_append] at hboth
  rw [hboth]
  cases lead' with
  | digits => rw [after_of_ne_none (by simp) hword']
  | word => rw [after_of_ne_none (by simp) hword']
  | none =>
    cases word with
    | nil => rfl
    | cons c word =>
      have hdigit : c.isDigit = false := Bool.eq_false_iff.mpr fun hdigit =>
        hnumber (by simpa using hdigit) number later hchars rfl
      rw [none_after_cons hword', hdigit]
      have hleft : ∀ cs, (∀ c ∈ cs, isNumberChar c = true) →
          (if false = true then digits else Lead.word).after cs ≠ digits := by
        intro cs hcs
        rw [if_neg Bool.false_ne_true, after_of_ne_none (by simp) hcs]
        simp
      have hright : none.after number ≠ digits := by
        cases number with
        | nil => simp
        | cons d number =>
          have hd : d.isDigit = false :=
            isDigit_of_not_isNameChar (by simpa [endsIdent] using hends)
          rw [none_after_cons hchars, hd]
          simp
      simp only [hleft number hchars, hright]

end AgreeOn

end Lead

def Lexeme.isNamePart : Lexeme → Bool
  | plain c => isNameChar c
  | _ => false

/-- Erases a word from the lexemes of a text where it is a longest run of identifier characters. -/
def eraseRun (word : List Lexeme) : List Lexeme → List Lexeme
  | [] => []
  | x :: xs =>
    if x.isNamePart then
      have := (List.dropWhile_sublist Lexeme.isNamePart (l := xs)).length_le
      let run := x :: xs.takeWhile Lexeme.isNamePart
      let later := eraseRun word (xs.dropWhile Lexeme.isNamePart)
      if run = word then later else run ++ later
    else x :: eraseRun word xs
termination_by xs => xs.length

private theorem exists_word_of_isNamePart {run : List Lexeme}
    (h : ∀ x ∈ run, x.isNamePart = true) :
    ∃ w : List Char, run = w.map .plain ∧ ∀ c ∈ w, isNameChar c = true := by
  induction run with
  | nil => exact ⟨[], rfl, by simp⟩
  | cons x run ih =>
    obtain ⟨hx, hrun⟩ := List.forall_mem_cons.mp h
    obtain ⟨w, rfl, hw⟩ := ih hrun
    cases x with
    | plain c => exact ⟨c :: w, rfl, List.forall_mem_cons.mpr ⟨hx, hw⟩⟩
    | _ => exact absurd hx Bool.false_ne_true

theorem Lexes.exists_of_append {lead : Lead} {cs : List Char} {xs ys : List Lexeme}
    (h : Lexes lead cs (xs ++ ys)) :
    ∃ rest, cs = xs.flatMap Lexeme.text ++ rest ∧
      Lexes (lead.after (xs.flatMap Lexeme.text)) rest ys := by
  induction xs generalizing lead cs with
  | nil => exact ⟨cs, rfl, h⟩
  | cons x xs ih =>
    cases h with
    | @cons _ after _ _ hst hxs =>
      obtain ⟨rest, rfl, hys⟩ := ih hxs
      exact ⟨rest, by simp, by simpa using hys⟩

theorem ne_slash_of_isNameChar {c : Char} (h : isNameChar c = true) : c ≠ '/' := by
  rintro rfl
  exact absurd h (by decide)

theorem opens_of_isNameChar {c : Char} (h : isNameChar c = true) (lead : Lead) :
    lead.opens c = false := by
  have hquote : (c == '"') = false := by
    rw [beq_eq_false_iff_ne]
    rintro rfl
    exact absurd h (by decide)
  have hapostrophe : (c == '\'') = false := by
    rw [beq_eq_false_iff_ne]
    rintro rfl
    exact absurd h (by decide)
  simp [Lead.opens, hquote, hapostrophe]

theorem Lexes.word_append {lead : Lead} {w rest : List Char} {xs : List Lexeme}
    (hw : ∀ c ∈ w, isNameChar c = true) (h : Lexes (lead.after w) rest xs) :
    Lexes lead (w ++ rest) (w.map .plain ++ xs) := by
  induction w generalizing lead with
  | nil => exact h
  | cons c w ih =>
    obtain ⟨hc, hw⟩ := List.forall_mem_cons.mp hw
    have hstands : (Lexeme.plain c).Stands lead (w ++ rest) :=
      ⟨opens_of_isNameChar hc lead, fun hs => absurd hs (ne_slash_of_isNameChar hc)⟩
    exact .cons (.plain c) hstands (ih hw h)

theorem Lexeme.Stands.endsIdent_head? {lead : Lead} {after : List Char} {x : Lexeme}
    (h : x.Stands lead after) (hx : x.isNamePart = false) : endsIdent x.text.head? = true := by
  cases x with
  | lineComment t =>
    obtain ⟨body, rfl, -⟩ := h
    rfl
  | blockComment t =>
    obtain ⟨body, rfl, -⟩ := h
    rfl
  | literal t =>
    obtain ⟨quote, body, rfl, hopens, -⟩ := h
    cases hq : isNameChar quote with
    | false => simp [endsIdent, text, hq]
    | true => rw [opens_of_isNameChar hq] at hopens; contradiction
  | plain c => simpa [endsIdent, text, isNamePart] using hx

theorem Lexes.endsIdent_head? {lead : Lead} {cs : List Char} {xs : List Lexeme}
    (h : Lexes lead cs xs) (hx : ∀ x ∈ xs.head?, x.isNamePart = false) :
    endsIdent cs.head? = true := by
  cases h with
  | nil => rfl
  | cons x hst _ =>
    obtain ⟨c, t, ht⟩ := List.exists_cons_of_ne_nil hst.text_ne_nil
    have hhead := hst.endsIdent_head? (hx x rfl)
    rw [ht] at hhead ⊢
    exact hhead

/-- Lexemes come one by one, but for the characters of an identifier, which come together. -/
theorem Lexes.run_induction
    {motive : (lead : Lead) → (cs : List Char) → (xs : List Lexeme) → Lexes lead cs xs → Prop}
    (nil : ∀ lead, motive lead [] [] (.nil lead))
    (word : ∀ lead w rest xs, w ≠ [] → (hw : ∀ c ∈ w, isNameChar c = true) →
      (∀ x ∈ xs.head?, x.isNamePart = false) → (h : Lexes (lead.after w) rest xs) →
      motive (lead.after w) rest xs h →
      motive lead (w ++ rest) (w.map .plain ++ xs) (.word_append hw h))
    (other : ∀ lead x rest xs, x.isNamePart = false → (hst : x.Stands lead rest) →
      (h : Lexes (lead.after x.text) rest xs) → motive (lead.after x.text) rest xs h →
      motive lead (x.text ++ rest) (x :: xs) (.cons x hst h))
    {lead : Lead} {cs : List Char} {xs : List Lexeme} (h : Lexes lead cs xs) :
    motive lead cs xs h := by
  induction hn : xs.length using Nat.strongRecOn generalizing lead cs xs with
  | ind n ih =>
    cases hlexes : h with
    | nil => exact nil lead
    | @cons _ rest ys x hst hxs =>
      cases hx : x.isNamePart with
      | false => exact other lead x rest ys hx hst hxs (ih ys.length (by simp [← hn]) hxs rfl)
      | true =>
        have htext := List.takeWhile_append_dropWhile (p := Lexeme.isNamePart) (l := x :: ys)
        have hrun : ∀ y ∈ (x :: ys).takeWhile Lexeme.isNamePart, y.isNamePart = true :=
          List.all_eq_true.mp List.all_takeWhile
        have hlater : ∀ y ∈ ((x :: ys).dropWhile Lexeme.isNamePart).head?, y.isNamePart = false := by
          intro y hy
          have hhead := List.head?_dropWhile_not Lexeme.isNamePart (x :: ys)
          rw [hy] at hhead
          simpa using hhead
        obtain ⟨w, hw, hchars⟩ := exists_word_of_isNamePart hrun
        have hne : w ≠ [] := by
          rintro rfl
          simp [hx] at hw
        rw [hw] at htext
        have hlength := congrArg List.length htext
        rw [List.length_append, List.length_map] at hlength
        have hpos := List.length_pos_iff.mpr hne
        obtain ⟨later, hcs, hys⟩ := (htext ▸ h).exists_of_append
        have hflat : (w.map Lexeme.plain).flatMap Lexeme.text = w := by
          rw [List.flatMap_map]
          exact List.flatMap_singleton' w
        rw [hflat] at hcs hys
        have hword := word lead w later _ hne hchars hlater hys (ih _ (by omega) hys rfl)
        have htransport : ∀ {cs xs} (h : Lexes lead cs xs), cs = w ++ later →
            xs = w.map .plain ++ (x :: ys).dropWhile Lexeme.isNamePart → motive lead cs xs h := by
          rintro _ _ h rfl rfl
          exact hword
        exact htransport _ hcs htext.symm

theorem eraseRun_cons {x : Lexeme} (hx : x.isNamePart = false) (word xs : List Lexeme) :
    eraseRun word (x :: xs) = x :: eraseRun word xs := by
  rw [eraseRun, if_neg (by simp [hx])]

private theorem eraseRun_of_isNamePart {x : Lexeme} (hx : x.isNamePart = true)
    (word xs : List Lexeme) :
    eraseRun word (x :: xs) =
      (if (x :: xs).takeWhile Lexeme.isNamePart = word then []
        else (x :: xs).takeWhile Lexeme.isNamePart) ++
          eraseRun word ((x :: xs).dropWhile Lexeme.isNamePart) := by
  rw [eraseRun, if_pos hx, List.takeWhile_cons_of_pos hx, List.dropWhile_cons_of_pos hx]
  by_cases hrun : x :: xs.takeWhile Lexeme.isNamePart = word
  · rw [if_pos hrun, if_pos hrun, List.nil_append]
  · rw [if_neg hrun, if_neg hrun]

theorem eraseRun_append {w : List Char} {xs : List Lexeme} (hne : w ≠ [])
    (hw : ∀ c ∈ w, isNameChar c = true) (hxs : ∀ x ∈ xs.head?, x.isNamePart = false)
    (word : List Char) :
    eraseRun (word.map .plain) (w.map .plain ++ xs) =
      (if w = word then [] else w.map .plain) ++ eraseRun (word.map .plain) xs := by
  have hrun : ∀ x ∈ w.map Lexeme.plain, x.isNamePart = true := by
    intro x hx
    obtain ⟨c, hc, rfl⟩ := List.mem_map.mp hx
    exact hw c hc
  have hstop : xs.takeWhile Lexeme.isNamePart = [] ∧ xs.dropWhile Lexeme.isNamePart = xs := by
    cases xs with
    | nil => exact ⟨rfl, rfl⟩
    | cons x xs => simp [hxs x rfl]
  have htake : (w.map Lexeme.plain ++ xs).takeWhile Lexeme.isNamePart = w.map .plain := by
    rw [List.takeWhile_append_of_pos hrun, hstop.1, List.append_nil]
  have hdrop : (w.map Lexeme.plain ++ xs).dropWhile Lexeme.isNamePart = xs := by
    rw [List.dropWhile_append_of_pos hrun, hstop.2]
  have hmap : w.map Lexeme.plain = word.map .plain ↔ w = word :=
    List.map_inj_right fun _ _ h => Lexeme.plain.inj h
  obtain ⟨c, later, rfl⟩ := List.exists_cons_of_ne_nil hne
  have hc : (Lexeme.plain c).isNamePart = true := hw c List.mem_cons_self
  have herase := eraseRun_of_isNamePart hc (word.map .plain) (later.map .plain ++ xs)
  rw [← List.cons_append, ← List.map_cons, htake, hdrop] at herase
  simpa only [hmap] using herase

theorem eraseRun_sublist (word xs : List Lexeme) : (eraseRun word xs).Sublist xs := by
  fun_induction eraseRun word xs with
  | case1 => exact .slnil
  | case2 x xs hx _ _ _ _ ih => exact (ih.trans (List.dropWhile_sublist _)).cons x
  | case3 x xs hx _ _ _ _ ih =>
    have hrun := ih.append_left (xs.takeWhile Lexeme.isNamePart)
    rw [List.takeWhile_append_dropWhile] at hrun
    exact hrun.cons_cons x
  | case4 x xs hx ih => exact ih.cons_cons x

theorem filter_isLiteral_eraseRun (word xs : List Lexeme) :
    (eraseRun word xs).filter Lexeme.isLiteral = xs.filter Lexeme.isLiteral := by
  have hname : ∀ x : Lexeme, x.isNamePart = true → x.isLiteral = false := by
    intro x hx
    cases x <;> simp_all [Lexeme.isNamePart, Lexeme.isLiteral]
  have hrun : ∀ xs : List Lexeme, (xs.takeWhile Lexeme.isNamePart).filter Lexeme.isLiteral = [] := by
    intro xs
    rw [List.filter_eq_nil_iff]
    intro x hx
    rw [hname x (List.all_eq_true.mp List.all_takeWhile x hx)]
    exact Bool.false_ne_true
  have hdrop : ∀ xs : List Lexeme,
      (xs.dropWhile Lexeme.isNamePart).filter Lexeme.isLiteral = xs.filter Lexeme.isLiteral := by
    intro xs
    have htext := congrArg (List.filter Lexeme.isLiteral)
      (List.takeWhile_append_dropWhile (p := Lexeme.isNamePart) (l := xs))
    rwa [List.filter_append, hrun, List.nil_append] at htext
  fun_induction eraseRun word xs with
  | case1 => rfl
  | case2 x xs hx _ _ later _ ih => simp [later, ih, hname x hx, hdrop]
  | case3 x xs hx _ run later _ ih => simp [run, later, ih, hname x hx, hrun, hdrop]
  | case4 x xs hx ih => simp only [List.filter_cons, ih]

end Reflector.Source
