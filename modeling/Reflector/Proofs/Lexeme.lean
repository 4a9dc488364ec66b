import Reflector.Source.Comment

namespace Reflector.Source

/-- A text ends with its first star and slash. -/
def ClosesComment (body : List Char) : Prop :=
  ∃ inside, body = inside ++ ['*', '/'] ∧ ¬ ['*', '/'] <:+: inside ++ ['*']

/-- What a literal has behind its opening quote, with the text `after` behind the literal. -/
inductive LiteralTail (quote : Char) : List Char → List Char → Prop
  | ended {after} : (∀ c ∈ after.head?, c = '\n') → LiteralTail quote [] after
  | broken : LiteralTail quote ['\\'] []
  | closed {after} : quote ≠ '\\' → quote ≠ '\n' → LiteralTail quote [quote] after
  | escape {body after} (c) : LiteralTail quote body after →
      LiteralTail quote ('\\' :: c :: body) after
  | other {body after} (c) : c ≠ '\\' → c ≠ '\n' → c ≠ quote → LiteralTail quote body after →
      LiteralTail quote (c :: body) after

/-- The lexeme stands first behind the lead, with the text `after` behind it. -/
def Lexeme.Stands (lead : Lead) (after : List Char) : Lexeme → Prop
  | lineComment t => ∃ body, t = '/' :: '/' :: body ∧ (∀ c ∈ body, isLineBreak c = false) ∧
      ∀ c ∈ after.head?, isLineBreak c = true
  | blockComment t => ∃ body, t = '/' :: '*' :: body ∧
      (ClosesComment body ∨ (after = [] ∧ ¬ ['*', '/'] <:+: body))
  | literal t => ∃ quote body, t = quote :: body ∧ lead.opens quote = true ∧
      LiteralTail quote body after
  | plain c => lead.opens c = false ∧ (c = '/' → ∀ d ∈ after.head?, d ≠ '/' ∧ d ≠ '*')

theorem splitLiteral_tail (quote : Char) (cs : List Char) :
    LiteralTail quote (splitLiteral quote cs).1 (splitLiteral quote cs).2 := by
  fun_induction splitLiteral quote cs with
  | case1 => exact .ended (by simp)
  | case2 => exact .broken
  | case3 c rest literal after he ih =>
    rw [he] at ih
    exact .escape c ih
  | case4 rest => exact .ended (by simp)
  | case5 rest hend hesc hn =>
    have hb : quote ≠ '\\' := by
      intro hq
      cases rest with
      | nil => exact hend hq rfl
      | cons d rest => exact hesc d rest hq rfl
    exact .closed hb hn
  | case6 c rest hend hesc hn hq literal after he ih =>
    rw [he] at ih
    have hb : c ≠ '\\' := by
      intro hc
      cases rest with
      | nil => exact hend hc rfl
      | cons d rest => exact hesc d rest hc rfl
    exact .other c hb hn hq ih

theorem LiteralTail.splitLiteral_append {quote : Char} {body after : List Char}
    (h : LiteralTail quote body after) :
    splitLiteral quote (body ++ after) = (body, after) := by
  induction h with
  | @ended after ha =>
    cases after with
    | nil => rfl
    | cons c rest =>
      have hc : c = '\n' := ha c rfl
      subst hc
      simp [splitLiteral]
  | broken => rfl
  | closed hb hn => simp [splitLiteral, hb, hn]
  | escape c _ ih => simp [splitLiteral, ih]
  | other c hb hn hq _ ih => simp [splitLiteral, hb, hn, hq, ih]

/-- What stands behind a literal matters only if the literal is not closed. -/
theorem LiteralTail.congr {quote : Char} {body after after' : List Char}
    (h : LiteralTail quote body after)
    (ha : (∃ c ∈ after.head?, c ≠ '\n') ∨ after'.head? = after.head?) :
    LiteralTail quote body after' := by
  induction h with
  | ended he =>
    rcases ha with ⟨c, hc, hne⟩ | ha
    · exact absurd (he c hc) hne
    · exact .ended (by rw [ha]; exact he)
  | broken =>
    have hnil : after' = [] := by simpa using ha
    rw [hnil]
    exact .broken
  | closed hb hn => exact .closed hb hn
  | escape c _ ih => exact .escape c (ih ha)
  | other c hb hn hq _ ih => exact .other c hb hn hq (ih ha)

private theorem splitBlockComment_closes (cs : List Char) :
    ClosesComment (splitBlockComment cs).1 ∨
      ((splitBlockComment cs).2 = [] ∧ ¬ ['*', '/'] <:+: (splitBlockComment cs).1) := by
  fun_induction splitBlockComment cs with
  | case1 => exact Or.inr ⟨rfl, by simp⟩
  | case2 rest => exact Or.inl ⟨[], rfl, by decide⟩
  | case3 c rest hne comment after he ih =>
    have hrest : comment ++ after = rest := by
      have h := splitBlockComment_append rest
      rwa [he] at h
    simp only [he] at ih
    have hstep : ∀ inside, (∀ r, inside = '/' :: r → ∃ r', rest = '/' :: r') →
        ¬ ['*', '/'] <:+: inside → ¬ ['*', '/'] <:+: c :: inside := by
      intro inside hslash hin hc
      rcases List.infix_cons_iff.mp hc with hp | hi
      · obtain ⟨t, ht⟩ := hp
        simp only [List.cons_append, List.nil_append, List.cons.injEq] at ht
        obtain ⟨r', hr'⟩ := hslash t ht.2.symm
        exact hne r' ht.1.symm hr'
      · exact hin hi
    rcases ih with ⟨inside, rfl, hn⟩ | ⟨ha, hn⟩
    · have hslash : ∀ r, inside ++ ['*'] = '/' :: r → ∃ r', rest = '/' :: r' := by
        intro r hr
        cases inside with
        | nil => simp at hr
        | cons d inside =>
          simp only [List.cons_append, List.cons.injEq] at hr
          exact ⟨inside ++ ['*', '/'] ++ after, by rw [← hrest, hr.1]; rfl⟩
      exact Or.inl ⟨c :: inside, rfl, hstep _ hslash hn⟩
    · refine Or.inr ⟨ha, hstep _ ?_ hn⟩
      intro r hr
      exact ⟨r ++ after, by rw [← hrest, hr]; rfl⟩

private theorem firstLexeme_stands (lead : Lead) (c : Char) (rest : List Char) :
    (firstLexeme lead c rest).1.Stands lead (firstLexeme lead c rest).2 := by
  unfold firstLexeme
  split
  · rename_i ho
    exact ⟨c, _, rfl, ho, splitLiteral_tail c rest⟩
  · rename_i ho
    split
    · rename_i rest
      refine ⟨rest.takeWhile fun c => !isLineBreak c, rfl, ?_, ?_⟩
      · intro d hd
        have h := List.all_eq_true.mp (List.all_takeWhile (p := fun c => !isLineBreak c)) d hd
        simpa using h
      · intro d hd
        have h := List.head?_dropWhile_not (fun c => !isLineBreak c) rest
        rw [hd] at h
        simpa using h
    · rename_i rest
      exact ⟨_, rfl, splitBlockComment_closes rest⟩
    · rename_i hline hblock
      refine ⟨by simpa using ho, ?_⟩
      intro hc d hd
      obtain ⟨tail, rfl⟩ := List.head?_eq_some_iff.mp hd
      exact ⟨fun h => hline tail hc (by rw [h]), fun h => hblock tail hc (by rw [h])⟩

theorem Lexeme.Stands.text_ne_nil {lead : Lead} {after : List Char} {x : Lexeme}
    (h : x.Stands lead after) : x.text ≠ [] := by
  cases x with
  | lineComment t =>
    obtain ⟨body, rfl, -⟩ := h
    exact List.cons_ne_nil _ _
  | blockComment t =>
    obtain ⟨body, rfl, -⟩ := h
    exact List.cons_ne_nil _ _
  | literal t =>
    obtain ⟨quote, body, rfl, -⟩ := h
    exact List.cons_ne_nil _ _
  | plain c => exact List.cons_ne_nil _ _

theorem Lexeme.Stands.congr {lead : Lead} {after after' : List Char} {x : Lexeme}
    (h : x.Stands lead after) (hx : x.isComment = false)
    (ha : after.head? = some '/' ∨ after'.head? = after.head?) : x.Stands lead after' := by
  cases x with
  | lineComment t => simp [isComment] at hx
  | blockComment t => simp [isComment] at hx
  | literal t =>
    obtain ⟨quote, body, rfl, ho, hb⟩ := h
    exact ⟨quote, body, rfl, ho, hb.congr (ha.imp_left fun hs => ⟨'/', hs, by decide⟩)⟩
  | plain c =>
    refine ⟨h.1, ?_⟩
    intro hc d hd
    rcases ha with ha | ha
    · exact absurd rfl (h.2 hc '/' ha).1
    · exact h.2 hc d (ha ▸ hd)

/-- Only the character that begins a lexeme is judged by the lead. -/
theorem Lexeme.Stands.of_opens {lead lead' : Lead} {after : List Char} {x : Lexeme}
    (h : x.Stands lead after) (hl : ∀ c ∈ x.text.head?, lead'.opens c = lead.opens c) :
    x.Stands lead' after := by
  cases x with
  | lineComment t => exact h
  | blockComment t => exact h
  | literal t =>
    obtain ⟨quote, body, rfl, ho, hb⟩ := h
    exact ⟨quote, body, rfl, by rw [hl quote rfl, ho], hb⟩
  | plain c => exact ⟨by rw [hl c rfl, h.1], h.2⟩

private theorem splitBlockComment_cons {c : Char} {cs : List Char}
    (h : ¬ ['*', '/'] <+: c :: cs) :
    splitBlockComment (c :: cs) = (c :: (splitBlockComment cs).1, (splitBlockComment cs).2) := by
  rw [splitBlockComment.eq_def]
  split
  · contradiction
  · rename_i heq
    exact absurd ⟨_, heq.symm⟩ h
  · rename_i heq
    simp only [List.cons.injEq] at heq
    obtain ⟨rfl, rfl⟩ := heq
    rfl

private theorem splitBlockComment_of_closes (inside after : List Char)
    (h : ¬ ['*', '/'] <:+: inside ++ ['*']) :
    splitBlockComment (inside ++ '*' :: '/' :: after) = (inside ++ ['*', '/'], after) := by
  induction inside with
  | nil => simp [splitBlockComment]
  | cons c inside ih =>
    rw [List.cons_append, List.infix_cons_iff, not_or] at h
    have hp : ¬ ['*', '/'] <+: c :: (inside ++ '*' :: '/' :: after) := by
      intro hp
      apply h.1
      cases inside with
      | nil => simp_all
      | cons d inside => simpa using hp
    rw [List.cons_append, splitBlockComment_cons hp, ih h.2]
    rfl

private theorem splitBlockComment_of_open (body : List Char) (h : ¬ ['*', '/'] <:+: body) :
    splitBlockComment body = (body, []) := by
  induction body with
  | nil => rfl
  | cons c body ih =>
    rw [List.infix_cons_iff, not_or] at h
    rw [splitBlockComment_cons h.1, ih h.2]

private theorem firstLexeme_of_stands {lead : Lead} {c : Char} {rest after : List Char} {x : Lexeme}
    (h : x.Stands lead after) (ht : c :: rest = x.text ++ after) :
    firstLexeme lead c rest = (x, after) := by
  have hslash : lead.opens '/' = false := by cases lead <;> rfl
  cases x with
  | lineComment t =>
    obtain ⟨body, rfl, hb, ha⟩ := h
    simp only [Lexeme.text, List.cons_append, List.cons.injEq] at ht
    obtain ⟨rfl, rfl⟩ := ht
    have hb' : ∀ c ∈ body, (!isLineBreak c) = true := fun c hc => by simp [hb c hc]
    have ha' : after.takeWhile (fun c => !isLineBreak c) = [] ∧
        after.dropWhile (fun c => !isLineBreak c) = after := by
      cases after with
      | nil => exact ⟨rfl, rfl⟩
      | cons d after => simp [ha d rfl]
    simp [firstLexeme, hslash, List.takeWhile_append_of_pos hb', List.dropWhile_append_of_pos hb',
      ha'.1, ha'.2]
  | blockComment t =>
    obtain ⟨body, rfl, hb⟩ := h
    simp only [Lexeme.text, List.cons_append, List.cons.injEq] at ht
    obtain ⟨rfl, rfl⟩ := ht
    have hs : splitBlockComment (body ++ after) = (body, after) := by
      rcases hb with ⟨inside, rfl, hn⟩ | ⟨rfl, hn⟩
      · simpa using splitBlockComment_of_closes inside after hn
      · simpa using splitBlockComment_of_open body hn
    simp [firstLexeme, hslash, hs]
  | literal t =>
    obtain ⟨quote, body, rfl, ho, hb⟩ := h
    simp only [Lexeme.text, List.cons_append, List.cons.injEq] at ht
    obtain ⟨rfl, rfl⟩ := ht
    simp [firstLexeme, ho, hb.splitLiteral_append]
  | plain d =>
    simp only [Lexeme.text, List.cons_append, List.nil_append, List.cons.injEq] at ht
    obtain ⟨rfl, rfl⟩ := ht
    unfold firstLexeme
    rw [if_neg (by simp [h.1])]
    split
    · exact absurd rfl (h.2 rfl '/' rfl).1
    · exact absurd rfl (h.2 rfl '*' rfl).2
    · rfl

/-- A text behind the lead falls into these lexemes, each of which stands first in its turn. -/
inductive Lexes : Lead → List Char → List Lexeme → Prop
  | nil (lead : Lead) : Lexes lead [] []
  | cons {lead : Lead} {after : List Char} {xs : List Lexeme} (x : Lexeme) :
      x.Stands lead after → Lexes (lead.after x.text) after xs → Lexes lead (x.text ++ after) (x :: xs)

theorem lexes_lexemes (lead : Lead) (cs : List Char) : Lexes lead cs (lexemes lead cs) := by
  fun_induction lexemes lead cs with
  | case1 lead => exact .nil lead
  | case2 lead c rest _ first ih =>
    rw [← text_firstLexeme lead c rest]
    exact .cons first.1 (firstLexeme_stands lead c rest) ih

theorem Lexes.lexemes_eq {lead : Lead} {cs : List Char} {xs : List Lexeme} (h : Lexes lead cs xs) :
    lexemes lead cs = xs := by
  induction h with
  | nil lead => exact lexemes_nil lead
  | @cons lead after xs x hst _ ih =>
    obtain ⟨c, rest, hc⟩ := List.exists_cons_of_ne_nil
      (List.append_ne_nil_of_left_ne_nil hst.text_ne_nil after)
    rw [hc, lexemes_cons, firstLexeme_of_stands hst hc.symm, ih]

private theorem lexes_plain {cs : List Char} (lead : Lead)
    (h : ∀ c ∈ cs, c ≠ '"' ∧ c ≠ '\'' ∧ c ≠ '/') : Lexes lead cs (cs.map .plain) := by
  induction cs generalizing lead with
  | nil => exact .nil lead
  | cons c cs ih =>
    obtain ⟨hquote, hapostrophe, hslash⟩ := h c List.mem_cons_self
    have hstands : (Lexeme.plain c).Stands lead cs := by
      refine ⟨by simp [Lead.opens, hquote, hapostrophe], ?_⟩
      intro hc
      exact absurd hc hslash
    exact .cons (.plain c) hstands (ih _ fun d hd => h d (List.mem_cons_of_mem c hd))

theorem withoutComments_eq_self {cs : List Char}
    (h : ∀ c ∈ cs, c ≠ '"' ∧ c ≠ '\'' ∧ c ≠ '/') : withoutComments cs = cs := by
  rw [withoutComments, (lexes_plain .none h).lexemes_eq, List.flatMap_map]
  exact List.flatMap_singleton' cs

end Reflector.Source
