import Reflector.Proofs.Lexeme
/-!
# Removing comments

The scan of a text without its comments finds what the scan of the whole text kept. No comment opens
where one was taken out, because a space or a line break stands there, and for the same reason no
apostrophe behind it is judged by another lead.
-/

namespace Reflector.Source

def Lexeme.isLiteral : Lexeme → Bool
  | literal _ => true
  | _ => false

/-- What the lexeme leaves behind when comments are removed, as lexemes. -/
def Lexeme.kept : Lexeme → List Lexeme
  | lineComment _ => []
  | blockComment _ => [plain ' ']
  | x => [x]

/-- The second text is the first without the comments among its lexemes. -/
inductive CommentsRemoved : List Lexeme → List Char → List Char → Prop
  | done : CommentsRemoved [] [] []
  | keep {xs src out} (x : Lexeme) : x.isComment = false → CommentsRemoved xs src out →
      CommentsRemoved (x :: xs) (x.text ++ src) (x.text ++ out)
  | lineComment {xs src out} (body : List Char) : (∀ c ∈ body, isLineBreak c = false) →
      (∀ c ∈ src.head?, isLineBreak c = true ∧ out.head? = some c) → CommentsRemoved xs src out →
      CommentsRemoved (.lineComment ('/' :: '/' :: body) :: xs) ('/' :: '/' :: body ++ src) out
  | blockComment {xs src out} (body : List Char) : ClosesComment body →
      CommentsRemoved xs src out →
      CommentsRemoved (.blockComment ('/' :: '*' :: body) :: xs) ('/' :: '*' :: body ++ src)
        (' ' :: out)
  | openComment (body : List Char) : ¬ ['*', '/'] <:+: body →
      CommentsRemoved [.blockComment ('/' :: '*' :: body)] ('/' :: '*' :: body) [' ']

private theorem uncommented_eq_text {x : Lexeme} (hx : x.isComment = false) :
    x.uncommented = x.text := by
  cases x <;> simp_all [Lexeme.isComment, Lexeme.uncommented, Lexeme.text]

private theorem kept_eq_self {x : Lexeme} (hx : x.isComment = false) : x.kept = [x] := by
  cases x <;> simp_all [Lexeme.isComment, Lexeme.kept]

private theorem isLineBreak_iff {c : Char} : isLineBreak c = true ↔ c = '\n' ∨ c = '\r' := by
  simp [isLineBreak]

theorem opens_of_isLineBreak {c : Char} (h : isLineBreak c = true) (lead : Lead) :
    lead.opens c = false := by
  rcases isLineBreak_iff.mp h with rfl | rfl <;> rfl

private theorem next_of_isLineBreak {c : Char} (h : isLineBreak c = true) (lead : Lead) :
    lead.next c = .none := by
  apply Lead.next_of_not_isNumberChar
  rcases isLineBreak_iff.mp h with rfl | rfl <;> decide

private theorem ClosesComment.after {body : List Char} (h : ClosesComment body) (lead : Lead) :
    lead.after ('/' :: '*' :: body) = .none := by
  obtain ⟨inside, rfl, -⟩ := h
  rw [show '/' :: '*' :: (inside ++ ['*', '/']) = ('/' :: '*' :: inside ++ ['*']) ++ ['/'] by simp]
  exact Lead.after_concat_of_not_isNumberChar (by decide) lead _

private theorem head?_uncommented {lead : Lead} {cs : List Char} {xs : List Lexeme}
    (h : Lexes lead cs xs) (hs : cs.head? ≠ some '/') :
    (xs.flatMap Lexeme.uncommented).head? = cs.head? := by
  cases h with
  | nil => rfl
  | cons x hst _ =>
    cases x with
    | lineComment t =>
      obtain ⟨body, rfl, -⟩ := hst
      exact absurd rfl hs
    | blockComment t =>
      obtain ⟨body, rfl, -⟩ := hst
      exact absurd rfl hs
    | literal t =>
      obtain ⟨quote, body, rfl, -⟩ := hst
      rfl
    | plain c => rfl

private theorem stands_uncommented {lead : Lead} {after : List Char} {x : Lexeme} {xs : List Lexeme}
    (hst : x.Stands lead after) (hx : x.isComment = false)
    (h : Lexes (lead.after x.text) after xs) :
    x.Stands lead (xs.flatMap Lexeme.uncommented) := by
  apply hst.congr hx
  by_cases hs : after.head? = some '/'
  · exact Or.inl hs
  · exact Or.inr (head?_uncommented h hs)

/-- The lead before a line break does not matter, neither for the lexeme nor for the lead after. -/
private theorem stands_of_agree {lead lead' : Lead} {x : Lexeme} {after : List Char}
    (hst : x.Stands lead after)
    (hl : lead' = lead ∨ ∀ c ∈ x.text.head?, isLineBreak c = true) :
    x.Stands lead' after ∧ lead'.after x.text = lead.after x.text := by
  rcases hl with rfl | hl
  · exact ⟨hst, rfl⟩
  · have hopens : ∀ c ∈ x.text.head?, lead'.opens c = lead.opens c := by
      intro c hc
      rw [opens_of_isLineBreak (hl c hc), opens_of_isLineBreak (hl c hc)]
    obtain ⟨c, t, ht⟩ := List.exists_cons_of_ne_nil hst.text_ne_nil
    have hc : isLineBreak c = true := hl c (by rw [ht]; rfl)
    refine ⟨hst.of_opens hopens, ?_⟩
    rw [ht, Lead.after_cons, Lead.after_cons, next_of_isLineBreak hc, next_of_isLineBreak hc]

/-- Two runs of the scanner side by side, over a text and over the same text without its comments.
The leads differ only where a line comment was taken out, and then a line break comes next. -/
private theorem Lexes.uncommented {lead lead' : Lead} {cs : List Char} {xs : List Lexeme}
    (h : Lexes lead cs xs) (hl : lead' = lead ∨ ∀ c ∈ cs.head?, isLineBreak c = true) :
    Lexes lead' (xs.flatMap Lexeme.uncommented) (xs.flatMap Lexeme.kept) := by
  induction h generalizing lead' with
  | nil => exact .nil lead'
  | @cons lead after xs x hst hxs ih =>
    rw [List.flatMap_cons, List.flatMap_cons]
    by_cases hx : x.isComment = false
    · have hhead : (x.text ++ after).head? = x.text.head? := by
        obtain ⟨c, t, ht⟩ := List.exists_cons_of_ne_nil hst.text_ne_nil
        rw [ht]
        rfl
      have hst' := stands_uncommented hst hx hxs
      rw [hhead] at hl
      obtain ⟨hst'', hlead⟩ := stands_of_agree hst' hl
      rw [uncommented_eq_text hx, kept_eq_self hx]
      exact .cons x hst'' (ih (Or.inl hlead))
    · cases x with
      | lineComment t =>
        obtain ⟨body, rfl, -, hbreak⟩ := hst
        exact ih (Or.inr hbreak)
      | blockComment t =>
        obtain ⟨body, rfl, hclose⟩ := hst
        -- the space that is left ends every run, as the slash of a closed comment does
        have hspace : lead'.next ' ' = .none := Lead.next_of_not_isNumberChar (by decide) lead'
        have hagree : lead'.next ' ' = lead.after ('/' :: '*' :: body) ∨
            ∀ c ∈ after.head?, isLineBreak c = true := by
          rcases hclose with hclose | ⟨rfl, -⟩
          · exact Or.inl (by rw [hspace, hclose.after])
          · exact Or.inr (by simp)
        exact .cons (.plain ' ') ⟨by cases lead' <;> rfl, by simp⟩ (ih hagree)
      | literal t => exact absurd rfl hx
      | plain c => exact absurd rfl hx

theorem lexemes_withoutComments (cs : List Char) :
    lexemes .none (withoutComments cs) = (lexemes .none cs).flatMap Lexeme.kept :=
  ((lexes_lexemes .none cs).uncommented (Or.inl rfl)).lexemes_eq

private theorem Lexes.commentsRemoved {lead : Lead} {cs : List Char} {xs : List Lexeme}
    (h : Lexes lead cs xs) : CommentsRemoved xs cs (xs.flatMap Lexeme.uncommented) := by
  induction h with
  | nil => exact .done
  | @cons lead after xs x hst hxs ih =>
    by_cases hx : x.isComment = false
    · rw [List.flatMap_cons, uncommented_eq_text hx]
      exact .keep x hx ih
    · cases x with
      | lineComment t =>
        obtain ⟨body, rfl, hbody, hbreak⟩ := hst
        refine .lineComment body hbody ?_ ih
        intro c hc
        have hs : after.head? ≠ some '/' := by
          intro hs
          exact absurd (hbreak '/' hs) (by decide)
        exact ⟨hbreak c hc, (head?_uncommented hxs hs).trans hc⟩
      | blockComment t =>
        obtain ⟨body, rfl, hclose | ⟨rfl, hopen⟩⟩ := hst
        · exact .blockComment body hclose ih
        · have hnil : xs = [] := by rw [← hxs.lexemes_eq, lexemes_nil]
          rw [hnil, Lexeme.text, List.append_nil]
          exact .openComment body hopen
      | literal t => exact absurd rfl hx
      | plain c => exact absurd rfl hx

private theorem isComment_of_mem_kept {x y : Lexeme} (hy : y ∈ x.kept) : y.isComment = false := by
  cases x <;> simp_all [Lexeme.kept, Lexeme.isComment]

private theorem filter_isLiteral_kept (x : Lexeme) :
    x.kept.filter Lexeme.isLiteral = [x].filter Lexeme.isLiteral := by
  cases x <;> rfl

private theorem flatMap_uncommented_kept (x : Lexeme) :
    x.kept.flatMap Lexeme.uncommented = x.uncommented := by
  cases x <;> simp [Lexeme.kept, Lexeme.uncommented]

private theorem filter_isLiteral_flatMap_kept (xs : List Lexeme) :
    (xs.flatMap Lexeme.kept).filter Lexeme.isLiteral = xs.filter Lexeme.isLiteral := by
  induction xs with
  | nil => rfl
  | cons x xs ih =>
    rw [List.flatMap_cons, List.filter_append, ih, filter_isLiteral_kept, ← List.filter_append]
    rfl

theorem isComment_of_mem_withoutComments {cs : List Char} :
    ∀ x ∈ lexemes .none (withoutComments cs), x.isComment = false := by
  intro x hx
  rw [lexemes_withoutComments, List.mem_flatMap] at hx
  obtain ⟨y, -, hy⟩ := hx
  exact isComment_of_mem_kept hy

theorem filter_isLiteral_withoutComments (cs : List Char) :
    (lexemes .none (withoutComments cs)).filter Lexeme.isLiteral =
      (lexemes .none cs).filter Lexeme.isLiteral := by
  rw [lexemes_withoutComments, filter_isLiteral_flatMap_kept]

/-- A text is cut into the lexemes that stand in it. Without its comments it has the same literals and no
comment. Every other character is kept in order, a block comment leaves one space and a line comment
nothing, and a second removal finds nothing to remove. -/
theorem withoutComments_spec (cs : List Char) :
    Lexes .none cs (lexemes .none cs) ∧
    (∀ x ∈ lexemes .none (withoutComments cs), x.isComment = false) ∧
      (lexemes .none (withoutComments cs)).filter Lexeme.isLiteral =
        (lexemes .none cs).filter Lexeme.isLiteral ∧
      CommentsRemoved (lexemes .none cs) cs (withoutComments cs) ∧
      withoutComments (withoutComments cs) = withoutComments cs := by
  refine ⟨lexes_lexemes .none cs, isComment_of_mem_withoutComments, filter_isLiteral_withoutComments cs,
    (lexes_lexemes .none cs).commentsRemoved, ?_⟩
  calc withoutComments (withoutComments cs)
      = ((lexemes .none cs).flatMap Lexeme.kept).flatMap Lexeme.uncommented := by
        rw [withoutComments, lexemes_withoutComments]
    _ = (lexemes .none cs).flatMap Lexeme.uncommented := by
        simp only [List.flatMap_assoc, flatMap_uncommented_kept]

end Reflector.Source
