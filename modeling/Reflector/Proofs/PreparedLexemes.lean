import Mathlib.Data.List.Infix
import Reflector.Proofs.LexemeRun
/-!
# The lexemes of a prepared text

Erasure knows nothing of literals. Where no literal holds the keyword as a word of its own, a second
scan finds the lexemes of the first without the runs that are the keyword, unless a slash in front of
the keyword comes to stand before another slash or a star, or the digits of the keyword were all that
made separators of the apostrophes behind it.
-/

namespace Reflector.Source

open Text

/-- Some literal has the keyword in it as a word of its own. -/
def HitsLiteral (keyword : List Char) (xs : List Lexeme) : Prop :=
  ∃ x ∈ xs, x.isLiteral = true ∧ keyword ∈ identRuns x.text

instance (keyword : List Char) (xs : List Lexeme) : Decidable (HitsLiteral keyword xs) :=
  inferInstanceAs (Decidable (∃ x ∈ xs, x.isLiteral = true ∧ keyword ∈ identRuns x.text))

private theorem HitsLiteral.append_left {keyword : List Char} {xs : List Lexeme}
    (h : HitsLiteral keyword xs) (early : List Lexeme) : HitsLiteral keyword (early ++ xs) := by
  obtain ⟨t, ht, hrun⟩ := h
  exact ⟨t, List.mem_append_right early ht, hrun⟩

/-- Nothing but the keyword stands between a slash and a character that makes a comment of it. -/
def OpensComment (keyword : List Char) (xs : List Lexeme) : Prop :=
  ∃ d, (d = '/' ∨ d = '*') ∧ ('/' :: (keyword ++ [d])).map .plain <:+: xs

instance (keyword : List Char) (xs : List Lexeme) : Decidable (OpensComment keyword xs) :=
  decidable_of_iff (('/' :: (keyword ++ ['/'])).map .plain <:+: xs ∨
      ('/' :: (keyword ++ ['*'])).map .plain <:+: xs)
    (by simp only [OpensComment, or_and_right, exists_or, exists_eq_left])

/-- The keyword has a digit in front, and somewhere it is all that makes a number of the characters
behind it up to an apostrophe. -/
def BeginsNumber (keyword cs : List Char) : Prop :=
  keyword.head?.any Char.isDigit = true ∧
    ∃ front number back, cs = front ++ (keyword ++ (number ++ '\'' :: back)) ∧
      endsIdent front.getLast? = true ∧ endsIdent number.head? = true ∧
      ∀ c ∈ number, isNumberChar c = true

private theorem LiteralTail.endsIdent {quote : Char} {body after : List Char}
    (h : LiteralTail quote body after) (hquote : isNameChar quote = false) (c : Char) :
    Source.endsIdent (c :: body).getLast? = true ∨ Source.endsIdent after.head? = true := by
  induction h generalizing c with
  | @ended after hend =>
    refine Or.inr ?_
    cases hhead : after.head? with
    | none => rfl
    | some d => rw [hend d hhead]; rfl
  | broken => exact Or.inr rfl
  | closed => exact Or.inl (by simp [Source.endsIdent, hquote])
  | escape d _ ih => simpa only [List.getLast?_cons_cons] using ih d
  | other d _ _ _ _ ih => simpa only [List.getLast?_cons_cons] using ih d

private theorem isNameChar_of_opens {lead : Lead} {c : Char} (h : lead.opens c = true) :
    isNameChar c = false := by
  refine Bool.eq_false_iff.mpr fun hc => ?_
  rw [opens_of_isNameChar hc] at h
  contradiction

private theorem Lexeme.Stands.endsIdent {lead : Lead} {after : List Char} {x : Lexeme}
    (h : x.Stands lead after) (hname : x.isNamePart = false) (hcomment : x.isComment = false) :
    Source.endsIdent x.text.getLast? = true ∨ Source.endsIdent after.head? = true := by
  cases x with
  | lineComment t => exact absurd hcomment (by simp [isComment])
  | blockComment t => exact absurd hcomment (by simp [isComment])
  | literal t =>
    obtain ⟨quote, body, rfl, hopens, htail⟩ := h
    exact htail.endsIdent (isNameChar_of_opens hopens) quote
  | plain c => exact Or.inl (by simpa [Source.endsIdent, text, isNamePart] using hname)

private theorem Lexes.eq_plain_cons {lead : Lead} {c : Char} {rest : List Char} {xs : List Lexeme}
    (h : Lexes lead (c :: rest) xs) (hopens : lead.opens c = false)
    (hxs : ∀ x ∈ xs, x.isComment = false) : ∃ ys, xs = .plain c :: ys := by
  generalize hcs : c :: rest = cs at h
  cases h with
  | nil => contradiction
  | @cons _ after ys x hst _ =>
    cases x with
    | lineComment t => exact absurd (hxs _ List.mem_cons_self) (by simp [Lexeme.isComment])
    | blockComment t => exact absurd (hxs _ List.mem_cons_self) (by simp [Lexeme.isComment])
    | literal t =>
      obtain ⟨quote, body, rfl, hquote, -⟩ := hst
      obtain ⟨rfl, -⟩ := List.cons.inj hcs
      rw [hopens] at hquote
      contradiction
    | plain d =>
      obtain ⟨rfl, -⟩ := List.cons.inj hcs
      exact ⟨ys, rfl⟩

private theorem opens_slash_or_star {c : Char} (h : c = '/' ∨ c = '*') (lead : Lead) :
    lead.opens c = false := by
  rcases h with rfl | rfl <;> cases lead <;> rfl

private theorem isComment_firstLexeme {lead : Lead} {c : Char} (h : c = '/' ∨ c = '*')
    (rest : List Char) : (firstLexeme lead '/' (c :: rest)).1.isComment = true := by
  have hslash : lead.opens '/' = false := opens_slash_or_star (Or.inl rfl) lead
  rcases h with rfl | rfl <;> simp [firstLexeme, hslash, Lexeme.isComment]

section

variable {keyword : List Char}

private theorem OpensComment.cons_iff {x : Lexeme} {xs : List Lexeme} :
    OpensComment keyword (x :: xs) ↔
      (x = .plain '/' ∧ ∃ d, (d = '/' ∨ d = '*') ∧ (keyword ++ [d]).map .plain <+: xs) ∨
        OpensComment keyword xs := by
  simp only [OpensComment, List.map_cons, List.infix_cons_iff, List.cons_prefix_cons, and_or_left,
    exists_or]
  refine or_congr ⟨?_, ?_⟩ Iff.rfl
  · rintro ⟨d, hd, hx, hxs⟩
    exact ⟨hx.symm, d, hd, hxs⟩
  · rintro ⟨hx, d, hd, hxs⟩
    exact ⟨d, hd, hx.symm, hxs⟩

private theorem OpensComment.append_iff {w : List Char} (hw : ∀ c ∈ w, isNameChar c = true)
    {xs : List Lexeme} : OpensComment keyword (w.map .plain ++ xs) ↔ OpensComment keyword xs := by
  induction w with
  | nil => exact Iff.rfl
  | cons c w ih =>
    obtain ⟨hc, hw⟩ := List.forall_mem_cons.mp hw
    rw [List.map_cons, List.cons_append, cons_iff, ih hw, or_iff_right]
    rintro ⟨hx, -⟩
    exact ne_slash_of_isNameChar hc (Lexeme.plain.inj hx)

variable (hne : keyword ≠ []) (hk : ∀ c ∈ keyword, isNameChar c = true)

include hne hk

private theorem BeginsNumber.append_left {front cs : List Char} (h : BeginsNumber keyword cs)
    (hseam : endsIdent front.getLast? = true ∨ endsIdent cs.head? = true) :
    BeginsNumber keyword (front ++ cs) := by
  obtain ⟨hdigit, before, number, back, rfl, hleft, hnumber⟩ := h
  refine ⟨hdigit, front ++ before, number, back, by simp, ?_, hnumber⟩
  rw [List.getLast?_append]
  cases hlast : before.getLast? with
  | some c => simpa [hlast] using hleft
  | none =>
    obtain rfl := List.getLast?_eq_none_iff.mp hlast
    obtain ⟨c, w, hw⟩ := List.exists_cons_of_ne_nil hne
    have hc : isNameChar c = true := hk c (by simp [hw])
    simpa [hw, endsIdent, hc] using hseam

private theorem head?_withoutKeyword_of_endsIdent {cs : List Char} (h : endsIdent cs.head? = true) :
    (withoutKeyword keyword cs).head? = cs.head? := by
  cases cs with
  | nil => rw [withoutKeyword, eraseFrom_nil hne]
  | cons c cs =>
    have hc : isNameChar c = false := by simpa [endsIdent] using h
    rw [withoutKeyword_cons hne hk hc, List.head?_cons, List.head?_cons]

private theorem head?_withoutKeyword (cs : List Char) :
    (withoutKeyword keyword cs).head? = cs.head? ∨
      ∃ rest, cs = keyword ++ rest ∧ (withoutKeyword keyword cs).head? = rest.head? := by
  cases hm : after? keyword cs with
  | none =>
    cases cs with
    | nil => exact Or.inl (by rw [withoutKeyword, eraseFrom_nil hne])
    | cons c cs => exact Or.inl (by rw [withoutKeyword, eraseFrom_cons_of_after?_eq_none hm]; rfl)
  | some rest =>
    have hcs := after?_eq_some_iff.mp hm
    cases hrest : endsIdent rest.head? with
    | true =>
      refine Or.inr ⟨rest, hcs, ?_⟩
      rw [hcs, withoutKeyword_append hne hk (Or.inr hrest), withoutKeyword_self hne,
        List.nil_append, head?_withoutKeyword_of_endsIdent hne hk hrest]
    | false =>
      obtain ⟨c, w, hw⟩ := List.exists_cons_of_ne_nil hne
      refine Or.inl ?_
      rw [withoutKeyword, eraseFrom_of_after?_eq_some hne hm, hrest, Bool.and_false,
        if_neg Bool.false_ne_true, hcs, hw]
      rfl

/-- Behind a slash of its own a comment character comes to stand when the keyword between them is
erased, and only then. -/
private theorem exists_head?_withoutKeyword_iff {lead lead' : Lead} {rest : List Char}
    {xs : List Lexeme}
    (hst : (Lexeme.plain '/').Stands lead rest) (h : Lexes lead' rest xs)
    (hxs : ∀ x ∈ xs, x.isComment = false) :
    (∃ d, (d = '/' ∨ d = '*') ∧ (withoutKeyword keyword rest).head? = some d) ↔
      ∃ d, (d = '/' ∨ d = '*') ∧ (keyword ++ [d]).map .plain <+: xs := by
  constructor
  · rintro ⟨d, hd, hhead⟩
    rcases head?_withoutKeyword hne hk rest with hsame | ⟨later, rfl, hlater⟩
    · obtain ⟨hslash, hstar⟩ := hst.2 rfl d (hsame ▸ hhead)
      exact absurd hd (not_or.mpr ⟨hslash, hstar⟩)
    · rw [hlater] at hhead
      obtain ⟨more, rfl⟩ := List.head?_eq_some_iff.mp hhead
      have hmore := lexes_lexemes (lead'.after keyword) (d :: more)
      have heq : xs = keyword.map .plain ++ lexemes (lead'.after keyword) (d :: more) :=
        h.lexemes_eq.symm.trans (Lexes.word_append hk hmore).lexemes_eq
      obtain ⟨ys, hys⟩ := hmore.eq_plain_cons (opens_slash_or_star hd _) fun x hx =>
        hxs x (heq ▸ List.mem_append_right _ hx)
      refine ⟨d, hd, ys, ?_⟩
      rw [heq, hys, List.map_append, List.append_assoc]
      rfl
  · rintro ⟨d, hd, ys, rfl⟩
    obtain ⟨more, hrest, -⟩ := h.exists_of_append
    have hname : isNameChar d = false := by rcases hd with rfl | rfl <;> decide
    have hflat : ((keyword ++ [d]).map Lexeme.plain).flatMap Lexeme.text = keyword ++ [d] := by
      rw [List.flatMap_map]
      exact List.flatMap_singleton' _
    rw [hflat, List.append_assoc] at hrest
    refine ⟨d, hd, ?_⟩
    rw [hrest, withoutKeyword_append hne hk (Or.inr (by simp [endsIdent, hname])),
      withoutKeyword_self hne, List.singleton_append, withoutKeyword_cons hne hk hname]
    rfl

/-- A lexeme that is no identifier character still stands first after the keyword is erased behind
it, unless that makes a comment of a slash. -/
private theorem Lexeme.Stands.erase {lead lead' : Lead} {rest : List Char} {x : Lexeme}
    (h : x.Stands lead rest) (hcomment : x.isComment = false)
    (hopens : ∀ c ∈ x.text.head?, lead'.opens c = lead.opens c)
    (hslash : x = .plain '/' →
      ¬ ∃ d, (d = '/' ∨ d = '*') ∧ (withoutKeyword keyword rest).head? = some d) :
    x.Stands lead' (withoutKeyword keyword rest) := by
  refine Stands.of_opens ?_ hopens
  cases x with
  | lineComment t => exact absurd hcomment (by simp [isComment])
  | blockComment t => exact absurd hcomment (by simp [isComment])
  | literal t =>
    obtain ⟨quote, body, rfl, hquote, htail⟩ := h
    refine ⟨quote, body, rfl, hquote, htail.congr ?_⟩
    cases hrest : Source.endsIdent rest.head? with
    | true => exact Or.inr (head?_withoutKeyword_of_endsIdent hne hk hrest)
    | false =>
      obtain ⟨c, hc, hname⟩ := Option.any_eq_true isNameChar rest.head? |>.mp
        (by simpa [Source.endsIdent] using hrest)
      refine Or.inl ⟨c, hc, ?_⟩
      rintro rfl
      exact absurd hname (by decide)
  | plain c =>
    refine ⟨h.1, ?_⟩
    rintro rfl d hd
    exact ⟨fun heq => hslash rfl ⟨d, Or.inl heq, hd⟩, fun heq => hslash rfl ⟨d, Or.inr heq, hd⟩⟩

private theorem withoutKeyword_text {x : Lexeme} (hname : x.isNamePart = false)
    (hcomment : x.isComment = false) (hliteral : x.isLiteral = true → keyword ∉ identRuns x.text) :
    withoutKeyword keyword x.text = x.text := by
  cases x with
  | lineComment t => exact absurd hcomment (by simp [Lexeme.isComment])
  | blockComment t => exact absurd hcomment (by simp [Lexeme.isComment])
  | literal t => exact withoutKeyword_eq_self hk (hliteral rfl)
  | plain c =>
    rw [Lexeme.text, withoutKeyword_cons hne hk hname, withoutKeyword, eraseFrom_nil hne]

/-- What erasing the keyword does to the lexemes of a text. -/
structure Erases (keyword : List Char) (lead : Lead) (cs : List Char) (xs : List Lexeme) : Prop where
  /-- The lexemes that are left are those that are not runs of the keyword. -/
  lexes : ¬ OpensComment keyword xs →
    Lexes lead (withoutKeyword keyword cs) (eraseRun (keyword.map .plain) xs)
  comment : OpensComment keyword xs →
    ∃ x ∈ lexemes lead (withoutKeyword keyword cs), x.isComment = true

private theorem Erases.keyword_append {lead : Lead} {rest : List Char} {xs : List Lexeme}
    (h : Erases keyword lead rest xs) (hends : endsIdent rest.head? = true)
    (hhead : ∀ x ∈ xs.head?, x.isNamePart = false) :
    Erases keyword lead (keyword ++ rest) (keyword.map .plain ++ xs) := by
  have htext : withoutKeyword keyword (keyword ++ rest) = withoutKeyword keyword rest := by
    rw [withoutKeyword_append hne hk (Or.inr hends), withoutKeyword_self hne, List.nil_append]
  have hrun : eraseRun (keyword.map .plain) (keyword.map .plain ++ xs) =
      eraseRun (keyword.map .plain) xs := by
    rw [eraseRun_append hne hk hhead, if_pos rfl, List.nil_append]
  refine ⟨fun hopen => ?_, fun hopen => ?_⟩
  · rw [htext, hrun]
    exact h.lexes fun hxs => hopen ((OpensComment.append_iff hk).mpr hxs)
  · rw [htext]
    exact h.comment ((OpensComment.append_iff hk).mp hopen)

private theorem Erases.word_append {lead : Lead} {w rest : List Char} {xs : List Lexeme}
    (h : Erases keyword (lead.after w) rest xs) (hends : endsIdent rest.head? = true) (hw : w ≠ [])
    (hchars : ∀ c ∈ w, isNameChar c = true) (hhead : ∀ x ∈ xs.head?, x.isNamePart = false)
    (hword : w ≠ keyword) : Erases keyword lead (w ++ rest) (w.map .plain ++ xs) := by
  have hself : withoutKeyword keyword w = w :=
    withoutKeyword_eq_self hk (by simpa [identRuns_of_forall hchars] using Ne.symm hword)
  have htext : withoutKeyword keyword (w ++ rest) = w ++ withoutKeyword keyword rest := by
    rw [withoutKeyword_append hne hk (Or.inr hends), hself]
  refine ⟨fun hopen => ?_, fun hopen => ?_⟩
  · rw [htext, eraseRun_append hw hchars hhead, if_neg hword]
    exact Lexes.word_append hchars
      (h.lexes fun hxs => hopen ((OpensComment.append_iff hchars).mpr hxs))
  · obtain ⟨x, hx, hxc⟩ := h.comment ((OpensComment.append_iff hchars).mp hopen)
    rw [htext, (Lexes.word_append hchars (lexes_lexemes _ _)).lexemes_eq]
    exact ⟨x, List.mem_append_right _ hx, hxc⟩

theorem Erases.cons {lead lead' lead'' : Lead} {x : Lexeme} {rest : List Char} {xs : List Lexeme}
    (h : Erases keyword (lead'.after x.text) rest xs) (hst : x.Stands lead rest)
    (hxs : Lexes lead'' rest xs) (hname : x.isNamePart = false)
    (hcomment : ∀ y ∈ x :: xs, y.isComment = false) (hliteral : ¬ HitsLiteral keyword (x :: xs))
    (hopens : ∀ c ∈ x.text.head?, lead'.opens c = lead.opens c) :
    Erases keyword lead' (x.text ++ rest) (x :: xs) := by
  obtain ⟨hx, hrest⟩ := List.forall_mem_cons.mp hcomment
  have htext : withoutKeyword keyword (x.text ++ rest) = x.text ++ withoutKeyword keyword rest := by
    rw [withoutKeyword_append hne hk (hst.endsIdent hname hx),
      withoutKeyword_text hne hk hname hx fun hx hrun => hliteral ⟨x, List.mem_cons_self, hx, hrun⟩]
  have hmeets : x = .plain '/' →
      ((∃ d, (d = '/' ∨ d = '*') ∧ (withoutKeyword keyword rest).head? = some d) ↔
        ∃ d, (d = '/' ∨ d = '*') ∧ (keyword ++ [d]).map .plain <+: xs) := by
    rintro rfl
    exact exists_head?_withoutKeyword_iff hne hk hst hxs hrest
  by_cases hslash : x = .plain '/' ∧
      ∃ d, (d = '/' ∨ d = '*') ∧ (withoutKeyword keyword rest).head? = some d
  · obtain ⟨rfl, d, hd, hafter⟩ := hslash
    obtain ⟨more, hmore⟩ := List.head?_eq_some_iff.mp hafter
    refine ⟨fun hopen => ?_, fun _ => ?_⟩
    · have hbefore := (hmeets rfl).mp ⟨d, hd, hafter⟩
      exact absurd (OpensComment.cons_iff.mpr (Or.inl ⟨rfl, hbefore⟩)) hopen
    · rw [htext, hmore, Lexeme.text, List.singleton_append, lexemes_cons]
      exact ⟨_, List.mem_cons_self, isComment_firstLexeme hd more⟩
  · have hstands : x.Stands lead' (withoutKeyword keyword rest) :=
      hst.erase hne hk hx hopens fun hplain hopen => hslash ⟨hplain, hopen⟩
    refine ⟨fun hopen => ?_, fun hopen => ?_⟩
    · rw [htext, eraseRun_cons hname]
      exact .cons x hstands (h.lexes fun hxs => hopen (OpensComment.cons_iff.mpr (Or.inr hxs)))
    · rcases OpensComment.cons_iff.mp hopen with ⟨rfl, hbefore⟩ | hopen
      · exact absurd ⟨rfl, (hmeets rfl).mpr hbefore⟩ hslash
      · obtain ⟨y, hy, hyc⟩ := h.comment hopen
        rw [htext, (Lexes.cons x hstands (lexes_lexemes _ _)).lexemes_eq]
        exact ⟨y, List.mem_cons_of_mem x hy, hyc⟩

/-- Two runs of the scanner side by side, over a text and over the same text without the keyword.
The leads may differ behind a word that was erased, but only where no apostrophe is judged by them. -/
theorem Lexes.erase {lead : Lead} {cs : List Char} {xs : List Lexeme} (h : Lexes lead cs xs)
    (hcomment : ∀ x ∈ xs, x.isComment = false) (hliteral : ¬ HitsLiteral keyword xs)
    (hnumber : ¬ BeginsNumber keyword cs) {lead' : Lead} (hagree : lead.AgreeOn lead' cs) :
    Erases keyword lead' cs xs := by
  induction h using Lexes.run_induction generalizing lead' with
  | nil lead =>
    have hnil : withoutKeyword keyword [] = [] := eraseFrom_nil hne none
    refine ⟨fun _ => by rw [hnil, eraseRun]; exact .nil lead', ?_⟩
    rintro ⟨d, -, hinfix⟩
    simp at hinfix
  | word lead w rest xs hw hchars hhead hxs ih =>
    have hends : endsIdent rest.head? = true := hxs.endsIdent_head? hhead
    have hcomment' : ∀ x ∈ xs, x.isComment = false := fun x hx =>
      hcomment x (List.mem_append_right _ hx)
    have hliteral' : ¬ HitsLiteral keyword xs := fun hhit => hliteral (hhit.append_left _)
    have hnumber' : ¬ BeginsNumber keyword rest := fun hbegins =>
      hnumber (hbegins.append_left hne hk (Or.inr hends))
    by_cases hword : w = keyword
    · subst hword
      refine (ih hcomment' hliteral' hnumber' (hagree.erase hchars hends ?_)).keyword_append hne hk
        hends hhead
      rintro hdigit number later hnum rfl
      have hfirst : Source.endsIdent number.head? = true := by
        cases number with
        | nil => rfl
        | cons c number => exact hends
      exact hnumber ⟨hdigit, [], number, later, rfl, rfl, hfirst, hnum⟩
    · exact (ih hcomment' hliteral' hnumber' hagree.after).word_append hne hk hends hw hchars hhead
        hword
  | other lead x rest xs hname hst hxs ih =>
    have hx : x.isComment = false := hcomment x List.mem_cons_self
    have hliteral' : ¬ HitsLiteral keyword xs := fun hhit => hliteral (hhit.append_left [x])
    have hnumber' : ¬ BeginsNumber keyword rest := fun hbegins =>
      hnumber (hbegins.append_left hne hk (hst.endsIdent hname hx))
    have hopens : ∀ c ∈ x.text.head?, lead'.opens c = lead.opens c := by
      intro c hc
      obtain ⟨t, ht⟩ := List.head?_eq_some_iff.mp hc
      rw [ht] at hagree
      exact hagree.opens
    exact (ih (fun y hy => hcomment y (List.mem_cons_of_mem x hy)) hliteral' hnumber'
      hagree.after).cons hne hk hst hxs hname hcomment hliteral hopens

theorem Lexes.mem_identRuns {lead : Lead} {cs : List Char} {xs : List Lexeme}
    (h : Lexes lead cs xs) (hhit : HitsLiteral keyword xs) : keyword ∈ identRuns cs := by
  obtain ⟨x, hx, hliteral, hrun⟩ := hhit
  obtain ⟨t, rfl⟩ : ∃ t, x = .literal t := by cases x <;> simp_all [Lexeme.isLiteral]
  obtain ⟨front, back, rfl⟩ := List.append_of_mem hx
  obtain ⟨rest, rfl, hrest⟩ := h.exists_of_append
  cases hrest with
  | @cons _ after _ _ hst _ =>
    have hquote := hst.endsIdent_head? rfl
    have hseam := hst.endsIdent rfl rfl
    rw [Lexeme.text] at hquote hseam hrun
    obtain ⟨a, b, rfl, ha, hb⟩ := exists_append_of_mem_identRuns hrun
    have hane : a ≠ [] := by
      rintro rfl
      obtain ⟨c, w, rfl⟩ := List.exists_cons_of_ne_nil hne
      simp [Source.endsIdent, hk c List.mem_cons_self] at hquote
    have hleft : Source.endsIdent (front.flatMap Lexeme.text ++ a).getLast? = true := by
      obtain ⟨c, hc⟩ := Option.isSome_iff_exists.mp (List.getLast?_isSome.mpr hane)
      rw [List.getLast?_append, hc, Option.some_or, ← hc]
      exact ha
    have hright : Source.endsIdent (b ++ after).head? = true := by
      cases b with
      | nil =>
        obtain ⟨c, hc⟩ := Option.isSome_iff_exists.mp (List.getLast?_isSome.mpr hne)
        rw [List.append_nil, List.getLast?_append, hc, Option.some_or, ← hc,
          endsIdent_getLast? hne hk] at hseam
        exact hseam.resolve_left Bool.false_ne_true
      | cons c b => exact hb
    have htext : front.flatMap Lexeme.text ++ ((Lexeme.literal (a ++ (keyword ++ b))).text ++ after) =
        (front.flatMap Lexeme.text ++ a) ++ (keyword ++ (b ++ after)) := by
      simp [Lexeme.text]
    rw [htext]
    exact Source.mem_identRuns hk hleft hright

end

/-- What the scan of a prepared text finds has no comment in it and has the literals of the source. -/
def KeepsLiterals (keyword cs : List Char) : Prop :=
  (∀ x ∈ lexemes .none (prepare keyword cs), x.isComment = false) ∧
    (lexemes .none (prepare keyword cs)).filter Lexeme.isLiteral =
      (lexemes .none cs).filter Lexeme.isLiteral

instance (keyword cs : List Char) : Decidable (KeepsLiterals keyword cs) :=
  inferInstanceAs (Decidable (_ ∧ _))

theorem HitsLiteral.congr {keyword : List Char} {xs ys : List Lexeme}
    (h : xs.filter Lexeme.isLiteral = ys.filter Lexeme.isLiteral) (hxs : HitsLiteral keyword xs) :
    HitsLiteral keyword ys := by
  obtain ⟨x, hx, hliteral, hrun⟩ := hxs
  have hmem : x ∈ xs.filter Lexeme.isLiteral := List.mem_filter.mpr ⟨hx, hliteral⟩
  rw [h] at hmem
  exact ⟨x, (List.mem_filter.mp hmem).1, hliteral, hrun⟩

/-- The lexemes of a prepared text are those that the removal of the comments keeps, without the
identifier runs that are the keyword. -/
theorem lexemes_prepare {keyword cs : List Char} (hne : keyword ≠ [])
    (hk : ∀ c ∈ keyword, isNameChar c = true)
    (hliteral : ¬ HitsLiteral keyword (lexemes .none cs))
    (hnumber : ¬ BeginsNumber keyword (withoutComments cs))
    (hopen : ¬ OpensComment keyword (lexemes .none (withoutComments cs))) :
    lexemes .none (prepare keyword cs) =
      eraseRun (keyword.map .plain) ((lexemes .none cs).flatMap Lexeme.kept) := by
  have hlexes := (lexes_lexemes .none (withoutComments cs)).erase hne hk isComment_of_mem_withoutComments
    (fun hhit => hliteral (hhit.congr (filter_isLiteral_withoutComments cs))) hnumber (.refl .none _)
  rw [prepare, (hlexes.lexes hopen).lexemes_eq, lexemes_withoutComments]

/-- No preparation keeps a literal that has the keyword in it as a word. Where none has it and no
number begins with the keyword, the literals are kept and no comment opens just when the keyword does
not stand alone between a slash and a second slash or a star. -/
theorem keepsLiterals_spec {keyword : List Char} (hne : keyword ≠ [])
    (hk : ∀ c ∈ keyword, isNameChar c = true) (cs : List Char) :
    (HitsLiteral keyword (lexemes .none cs) → ¬ KeepsLiterals keyword cs) ∧
      (¬ HitsLiteral keyword (lexemes .none cs) → ¬ BeginsNumber keyword (withoutComments cs) →
        (KeepsLiterals keyword cs ↔ ¬ OpensComment keyword (lexemes .none (withoutComments cs)))) := by
  have hfilter := filter_isLiteral_withoutComments cs
  refine ⟨?_, fun hliteral hnumber => ⟨?_, fun hopen => ?_⟩⟩
  · rintro hhit ⟨-, hsame⟩
    have hmem := (lexes_lexemes .none (prepare keyword cs)).mem_identRuns hne hk
      (hhit.congr hsame.symm)
    exact not_mem_identRuns_withoutKeyword hne hk _ hmem
  · rintro ⟨hnone, -⟩ hopen
    have hlexes := (lexes_lexemes .none (withoutComments cs)).erase hne hk
      isComment_of_mem_withoutComments (fun hhit => hliteral (hhit.congr hfilter)) hnumber (.refl .none _)
    obtain ⟨x, hx, hxc⟩ := hlexes.comment hopen
    rw [hnone x hx] at hxc
    contradiction
  · rw [KeepsLiterals, lexemes_prepare hne hk hliteral hnumber hopen, ← lexemes_withoutComments]
    refine ⟨fun x hx => isComment_of_mem_withoutComments x ((eraseRun_sublist _ _).mem hx), ?_⟩
    rw [filter_isLiteral_eraseRun, hfilter]

/-- The keyword closes the head of a class, and stands in a literal as part of a longer word. -/
def finalClassText : List Char :=
  "class A final \x7b char *s = \"finally\"; \x7d; // final".toList

def quotedKeywordText : List Char :=
  "s = \"final\";".toList

theorem keepsLiterals_finalClass :
    KeepsLiterals "final".toList finalClassText ∧
      ¬ KeepsLiterals "final".toList quotedKeywordText := by
  have hfree : ¬ HitsLiteral "final".toList (lexemes .none finalClassText) := by decide +kernel
  have hhit : HitsLiteral "final".toList (lexemes .none quotedKeywordText) := by decide +kernel
  have hletter : ¬ BeginsNumber "final".toList (withoutComments finalClassText) := fun h =>
    absurd h.1 (by decide)
  have hclosed : ¬ OpensComment "final".toList (lexemes .none (withoutComments finalClassText)) := by
    decide +kernel
  have hne : "final".toList ≠ [] := by decide
  have hk : ∀ c ∈ "final".toList, isNameChar c = true := List.all_eq_true.mp (by decide)
  exact ⟨((keepsLiterals_spec hne hk finalClassText).2 hfree hletter).mpr hclosed,
    (keepsLiterals_spec hne hk quotedKeywordText).1 hhit⟩

/-- Erasing a keyword edits a literal. -/
theorem exists_not_keepsLiterals :
    ∃ keyword cs : List Char, keyword ≠ [] ∧ (∀ c ∈ keyword, isNameChar c = true) ∧
      ¬ KeepsLiterals keyword cs := by
  refine ⟨"final".toList, quotedKeywordText, by decide, List.all_eq_true.mp (by decide), ?_⟩
  decide +kernel

end Reflector.Source
