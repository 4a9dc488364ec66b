import Reflector.Proofs.CommentRemoval
import Reflector.Proofs.Keyword
import Reflector.Proofs.LineEnding
/-!
# Preparing texts with either line ending

A line comment ends at either kind of line break and a literal ends before a line feed, so that both
end on the same line whichever way the lines end. The one exception is a literal that goes on over a
line end: a backslash takes a line feed with it, but of a carriage return and a line feed only the
first. Where no literal goes on, the prepared texts differ in the line endings only.
-/

namespace Reflector.Source

open Text

@[simp] theorem Lead.after_crlf (lead : Lead) (cs : List Char) : lead.after (crlf cs) = lead.after cs := by
  induction cs generalizing lead with
  | nil => rfl
  | cons c cs ih =>
    by_cases hc : c = '\n'
    · subst hc
      have hnone : ∀ lead : Lead, lead.next '\n' = .none :=
        Lead.next_of_not_isNumberChar (by decide)
      simp [hnone, ih]
    · rw [crlf_cons hc, Lead.after_cons, Lead.after_cons, ih]

private theorem isLineBreak_of_mem_head?_crlf {cs : List Char}
    (h : ∀ c ∈ cs.head?, isLineBreak c = true) : ∀ c ∈ (crlf cs).head?, isLineBreak c = true := by
  intro c hc
  rw [head?_crlf] at hc
  obtain ⟨d, hd, rfl⟩ := Option.map_eq_some_iff.mp hc
  split
  · decide
  · exact h d hd

/-- A literal on one line ends where it did, or a line end follows and its carriage return comes to
belong to the literal. -/
theorem LiteralTail.crlf {quote : Char} {body after : List Char} (h : LiteralTail quote body after)
    (hquote : quote ≠ '\r') (hbody : '\n' ∉ body) :
    LiteralTail quote body (crlf after) ∨
      ∃ rest, after = '\n' :: rest ∧ LiteralTail quote (body ++ ['\r']) ('\n' :: Text.crlf rest) := by
  induction h with
  | @ended after hafter =>
    cases after with
    | nil => exact Or.inl (.ended (by simp))
    | cons c rest =>
      obtain rfl := hafter c rfl
      exact Or.inr ⟨rest, rfl, .other '\r' (by decide) (by decide) hquote.symm (.ended (by simp))⟩
  | broken => exact Or.inl .broken
  | closed hb hn => exact Or.inl (.closed hb hn)
  | @escape body after c _ ih =>
    have hmem : '\n' ∉ body := fun hm => hbody (by simp [hm])
    rcases ih hmem with hleft | ⟨rest, rfl, hright⟩
    · exact Or.inl (.escape c hleft)
    · exact Or.inr ⟨rest, rfl, .escape c hright⟩
  | @other body after c hb hn hq _ ih =>
    have hmem : '\n' ∉ body := fun hm => hbody (by simp [hm])
    rcases ih hmem with hleft | ⟨rest, rfl, hright⟩
    · exact Or.inl (.other c hb hn hq hleft)
    · exact Or.inr ⟨rest, rfl, .other c hb hn hq hright⟩

private theorem ClosesComment.crlf {body : List Char} (h : ClosesComment body) :
    ClosesComment (crlf body) := by
  obtain ⟨inside, rfl, hinside⟩ := h
  refine ⟨Text.crlf inside, ?_, ?_⟩
  · rw [crlf_append]
    rfl
  · intro hm
    apply hinside
    apply infix_of_infix_crlf (by decide)
    rw [crlf_append]
    exact hm

private theorem flatMap_uncommented_of_stands {lead : Lead} {after : List Char} {x : Lexeme}
    (h : x.Stands lead after) :
    (lexemes lead (x.text ++ after)).flatMap Lexeme.uncommented =
      x.uncommented ++ (lexemes (lead.after x.text) after).flatMap Lexeme.uncommented := by
  rw [(Lexes.cons x h (lexes_lexemes _ after)).lexemes_eq, List.flatMap_cons]

private theorem flatMap_uncommented_lineBreak {c : Char} (hc : isLineBreak c = true) (lead : Lead)
    (cs : List Char) : (lexemes lead (c :: cs)).flatMap Lexeme.uncommented =
      c :: (lexemes (lead.next c) cs).flatMap Lexeme.uncommented := by
  have hstands : (Lexeme.plain c).Stands lead cs := by
    refine ⟨opens_of_isLineBreak hc lead, ?_⟩
    rintro rfl
    contradiction
  exact flatMap_uncommented_of_stands hstands

/-- No literal of the text goes on over a line end. -/
def LiteralsKeepLines (cs : List Char) : Prop :=
  ∀ x ∈ lexemes .none cs, x.isLiteral = true → '\n' ∉ x.text

instance (cs : List Char) : Decidable (LiteralsKeepLines cs) :=
  inferInstanceAs (Decidable (∀ x ∈ lexemes .none cs, x.isLiteral = true → '\n' ∉ x.text))

private theorem Lexes.flatMap_uncommented_crlf {lead : Lead} {cs : List Char} {xs : List Lexeme}
    (h : Lexes lead cs xs) (hxs : ∀ x ∈ xs, x.isLiteral = true → '\n' ∉ x.text) :
    (lexemes lead (crlf cs)).flatMap Lexeme.uncommented = crlf (xs.flatMap Lexeme.uncommented) := by
  induction h with
  | nil lead => rw [crlf_nil, lexemes_nil]; rfl
  | @cons lead after xs x hstands _ ih =>
    obtain ⟨hx, hxs⟩ := List.forall_mem_cons.mp hxs
    have ih := ih hxs
    rw [List.flatMap_cons, crlf_append, crlf_append, ← ih]
    cases x with
    | lineComment t =>
      obtain ⟨body, rfl, hbody, hafter⟩ := hstands
      have hline : crlf ('/' :: '/' :: body) = '/' :: '/' :: body := by
        apply crlf_eq_self
        apply SingleLine.lineFeed_not_mem
        simpa [SingleLine, isLineBreak] using hbody
      have hstands' : (Lexeme.lineComment ('/' :: '/' :: body)).Stands lead (crlf after) :=
        ⟨body, rfl, hbody, isLineBreak_of_mem_head?_crlf hafter⟩
      have hfirst := flatMap_uncommented_of_stands hstands'
      simpa [Lexeme.text, Lexeme.uncommented, hline] using hfirst
    | blockComment t =>
      obtain ⟨body, rfl, hbody⟩ := hstands
      have hstands' : (Lexeme.blockComment ('/' :: '*' :: crlf body)).Stands lead (crlf after) := by
        refine ⟨crlf body, rfl, ?_⟩
        rcases hbody with hcloses | ⟨rfl, hopen⟩
        · exact Or.inl hcloses.crlf
        · exact Or.inr ⟨rfl, fun hm => hopen (infix_of_infix_crlf (by decide) hm)⟩
      have hfirst := flatMap_uncommented_of_stands hstands'
      simpa [Lexeme.text, Lexeme.uncommented, crlf_cons] using hfirst
    | literal t =>
      obtain ⟨quote, body, rfl, ho, hbody⟩ := hstands
      have hline : '\n' ∉ quote :: body := hx rfl
      have hquote : quote ≠ '\r' := by
        rintro rfl
        rw [opens_of_isLineBreak (by decide)] at ho
        contradiction
      have hself : crlf (quote :: body) = quote :: body := crlf_eq_self hline
      rcases hbody.crlf hquote (fun hm => hline (List.mem_cons_of_mem quote hm)) with
        hsame | ⟨rest, rfl, hmore⟩
      · have hstands' : (Lexeme.literal (quote :: body)).Stands lead (crlf after) :=
          ⟨quote, body, rfl, ho, hsame⟩
        have hfirst := flatMap_uncommented_of_stands hstands'
        simpa [Lexeme.text, Lexeme.uncommented, hself] using hfirst
      · -- The carriage return belongs to the literal now and was a lexeme of its own for `ih`.
        have hstands' : (Lexeme.literal (quote :: body ++ ['\r'])).Stands lead ('\n' :: crlf rest) :=
          ⟨quote, body ++ ['\r'], rfl, ho, hmore⟩
        have hfirst := flatMap_uncommented_of_stands hstands'
        have hreturn := flatMap_uncommented_lineBreak (c := '\r') (by decide)
          (lead.after (quote :: body)) ('\n' :: crlf rest)
        simp only [Lexeme.text, Lexeme.uncommented, hself, crlf_lineFeed] at hfirst hreturn ⊢
        rw [hreturn]
        simpa using hfirst
    | plain c =>
      by_cases hc : c = '\n'
      · subst hc
        have hreturn := flatMap_uncommented_lineBreak (c := '\r') (by decide) lead
          ('\n' :: crlf after)
        have hfeed := flatMap_uncommented_lineBreak (c := '\n') (by decide) (lead.next '\r')
          (crlf after)
        have hnone : ∀ lead : Lead, lead.next '\n' = .none :=
          Lead.next_of_not_isNumberChar (by decide)
        rw [hnone] at hfeed
        simpa [Lexeme.text, Lexeme.uncommented, hnone, hfeed] using hreturn
      · have hself : crlf [c] = [c] := crlf_cons hc []
        have hstands' : (Lexeme.plain c).Stands lead (crlf after) := by
          refine ⟨hstands.1, fun hslash d hd => ?_⟩
          rw [head?_crlf] at hd
          obtain ⟨e, he, rfl⟩ := Option.map_eq_some_iff.mp hd
          split
          · decide
          · exact hstands.2 hslash e he
        have hfirst := flatMap_uncommented_of_stands hstands'
        simpa [Lexeme.text, Lexeme.uncommented, hself] using hfirst

private theorem withoutComments_crlf {cs : List Char} (h : LiteralsKeepLines cs) :
    withoutComments (crlf cs) = crlf (withoutComments cs) :=
  (lexes_lexemes .none cs).flatMap_uncommented_crlf h

private theorem endsIdent_head?_crlf (cs : List Char) :
    endsIdent (crlf cs).head? = endsIdent cs.head? := by
  rw [head?_crlf]
  cases cs with
  | nil => rfl
  | cons c cs =>
    by_cases hc : c = '\n'
    · subst hc
      rfl
    · simp [hc]

private theorem eraseFrom_crlf {keyword : List Char} (hkeyword : SingleLine keyword)
    (left : Option Char)
    (cs : List Char) : eraseFrom keyword left (crlf cs) = crlf (eraseFrom keyword left cs) := by
  have hcrlf := after?_crlf hkeyword
  fun_induction eraseFrom keyword left cs with
  | case1 left cs rest hm hk =>
    subst hk
    simp [eraseFrom, after?]
  | case2 left cs rest hm hk _ hends ih =>
    have hm' := hcrlf cs
    rw [hm, Option.map_some] at hm'
    rw [eraseFrom_of_after?_eq_some hk hm', endsIdent_head?_crlf, if_pos hends, ih]
  | case3 left cs rest hm hk _ hends ih =>
    have hm' := hcrlf cs
    rw [hm, Option.map_some] at hm'
    rw [eraseFrom_of_after?_eq_some hk hm', endsIdent_head?_crlf, if_neg hends, ih,
      crlf_append_of_singleLine hkeyword]
  | case4 left hm =>
    rw [crlf_nil, eraseFrom.eq_def]
    split
    · rename_i hs
      rw [hm] at hs
      contradiction
    · rfl
  | case5 left c rest hm ih =>
    have hm' := hcrlf (c :: rest)
    rw [hm, Option.map_none] at hm'
    by_cases hc : c = '\n'
    · subst hc
      -- The keyword is not empty, as it would stand here, and so does not begin with a line feed.
      have hfeed : after? keyword ('\n' :: crlf rest) = none := by
        rw [Option.eq_none_iff_forall_ne_some]
        intro more hmore
        rw [after?_eq_some_iff] at hmore
        cases keyword with
        | nil => simp [after?] at hm
        | cons d keyword =>
          obtain ⟨rfl, -⟩ := List.cons.inj hmore
          exact absurd (hkeyword '\n' List.mem_cons_self) (by decide)
      rw [crlf_lineFeed] at hm' ⊢
      rw [eraseFrom_cons_of_after?_eq_none hm', eraseFrom_cons_of_after?_eq_none hfeed, ih,
        crlf_lineFeed]
    · rw [crlf_cons hc] at hm' ⊢
      rw [eraseFrom_cons_of_after?_eq_none hm', ih, crlf_cons hc]

theorem prepare_crlf {keyword : List Char} (hkeyword : SingleLine keyword) {src : List Char}
    (h : LiteralsKeepLines src) :
    prepare keyword (crlf src) = crlf (prepare keyword src) := by
  rw [prepare, withoutComments_crlf h]
  exact eraseFrom_crlf hkeyword none _

end Reflector.Source
