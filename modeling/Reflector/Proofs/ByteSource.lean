import Reflector.Bytes.Source
import Reflector.Proofs.ByteBlock
import Reflector.Proofs.KeywordErasure
/-!
# Source texts by byte index

No cut that comment removal or keyword erasure makes fails, and the pieces make up the text without its
comments and without the keyword. The scan is followed lexeme by lexeme, with what is kept but not copied
yet between the two indices.
-/

namespace Reflector.Bytes

open Text Source

private theorem isLineBreak_of_isWide {c : Char} (h : IsWide c) : isLineBreak c = false := by
  simp [isLineBreak, h.ne (show ¬ IsWide '\n' by decide), h.ne (show ¬ IsWide '\r' by decide)]

private theorem blockCommentEnd_eq {cs rest : List Char} {i : Nat} (h : Begins cs i rest) :
    blockCommentEnd (encode cs) i = i + byteLength (splitBlockComment rest).1 := by
  have hstar : ¬ IsWide '*' := by decide
  have hslash : ¬ IsWide '/' := by decide
  rw [blockCommentEnd]
  fun_induction splitBlockComment rest generalizing i with
  | case1 => rw [h.findPair?_nil, h.length_eq]
  | case2 rest =>
    rw [h.findPair?_here hstar hslash]
    rfl
  | case3 c rest hne comment after heq ih =>
    rw [h.findPair?_cons hstar hslash (cons_ne_pair hne), ih h.cons, heq, byteLength_cons, Nat.add_assoc]

private theorem firstLexeme_cases (lead : Lead) (c : Char) (rest : List Char) :
    (lead.opens c = true ∧
      firstLexeme lead c rest = (.literal (c :: (splitLiteral c rest).1), (splitLiteral c rest).2)) ∨
    (lead.opens c = false ∧ ∃ later, c :: rest = '/' :: '/' :: later ∧
      firstLexeme lead c rest = (.lineComment ('/' :: '/' :: later.takeWhile (!isLineBreak ·)),
        later.dropWhile (!isLineBreak ·))) ∨
    (lead.opens c = false ∧ ∃ later, c :: rest = '/' :: '*' :: later ∧
      firstLexeme lead c rest = (.blockComment ('/' :: '*' :: (splitBlockComment later).1),
        (splitBlockComment later).2)) ∨
    (lead.opens c = false ∧ (∀ later, c :: rest ≠ '/' :: '/' :: later) ∧
      (∀ later, c :: rest ≠ '/' :: '*' :: later) ∧ firstLexeme lead c rest = (.plain c, rest)) := by
  unfold firstLexeme
  cases hc : lead.opens c with
  | true => exact Or.inl ⟨rfl, rfl⟩
  | false =>
    simp only [Bool.false_eq_true, if_false, false_and, false_or, true_and]
    split
    · exact Or.inl ⟨_, rfl, rfl⟩
    · exact Or.inr (Or.inl ⟨_, rfl, rfl⟩)
    · rename_i hline hblock
      exact Or.inr (Or.inr ⟨cons_ne_pair hline, cons_ne_pair hblock, rfl⟩)

private theorem withoutCommentsFrom?_of_at? {cs : List Char} {i : Nat} {c : Char}
    (h : at? (encode cs) i = some c) (last : Nat) :
    withoutCommentsFrom? cs last i =
      if (c = '"' ∨ c = '\'') ∧ opensLiteral (encode cs) i = true then
        withoutCommentsFrom? cs last (literalEnd c (encode cs) (i + 1))
      else if c = '/' ∧ at? (encode cs) (i + 1) = some '/' then do
        let kept ← slice? last i cs
        let stop := skipWhile (!isLineBreak ·) (encode cs) i
        let later ← withoutCommentsFrom? cs stop stop
        return kept ++ later
      else if c = '/' ∧ at? (encode cs) (i + 1) = some '*' then do
        let kept ← slice? last i cs
        let _ ← suffix? (i + 2) cs
        let stop := blockCommentEnd (encode cs) (i + 2)
        let later ← withoutCommentsFrom? cs stop stop
        return kept ++ ' ' :: later
      else withoutCommentsFrom? cs last (i + 1) := by
  rw [withoutCommentsFrom?.eq_def]
  split
  · simp_all
  · rename_i d hd
    obtain rfl := Option.some.inj (h.symm.trans hd)
    rfl

private theorem withoutCommentsFrom?_of_isWide {cs : List Char} {i : Nat} {c : Char}
    (h : at? (encode cs) i = some c) (hc : IsWide c) (last : Nat) :
    withoutCommentsFrom? cs last i = withoutCommentsFrom? cs last (i + 1) := by
  have hslash : c ≠ '/' := hc.ne (by decide)
  rw [withoutCommentsFrom?_of_at? h, if_neg fun hquote => hc.not_quote hquote.1,
    if_neg fun hline => hslash hline.1, if_neg fun hblock => hslash hblock.1]

section

variable {cs before rest : List Char} {c : Char}

private theorem withoutCommentsFrom?_literal (hcs : cs = before ++ c :: rest)
    (hc : (Lead.none.after before).opens c = true) (last : Nat) :
    withoutCommentsFrom? cs last (byteLength before) =
      withoutCommentsFrom? cs last (byteLength (before ++ c :: (splitLiteral c rest).1)) := by
  obtain ⟨hat, hend⟩ := literalEnd_of_opens hcs hc
  rw [withoutCommentsFrom?_of_at? hat, if_pos ((opensLiteral_iff hcs).mpr hc), hend]

private theorem withoutCommentsFrom?_plain (hcs : cs = before ++ c :: rest)
    (hc : (Lead.none.after before).opens c = false)
    (hline : ∀ later, c :: rest ≠ '/' :: '/' :: later)
    (hblock : ∀ later, c :: rest ≠ '/' :: '*' :: later) (last : Nat) :
    withoutCommentsFrom? cs last (byteLength before) =
      withoutCommentsFrom? cs last (byteLength (before ++ [c])) := by
  have hbegins : Begins cs (byteLength before) (c :: rest) := ⟨before, hcs, rfl⟩
  rw [byteLength_append, byteLength_cons, byteLength_nil, Nat.add_zero]
  by_cases hwide : IsWide c
  · exact hbegins.pass_wide hwide
      (fun j d hd hd' => withoutCommentsFrom?_of_isWide hd hd' last) (Nat.zero_le _)
  · have hat := hbegins.at?_of_not_isWide hwide
    have hquote := mt (opensLiteral_iff hcs).mp (Bool.eq_false_iff.mp hc)
    have hpair : ∀ {b}, ¬ IsWide b → (∀ later, c :: rest ≠ '/' :: b :: later) →
        ¬ (c = '/' ∧ at? (encode cs) (byteLength before + 1) = some b) := by
      rintro b hb hne ⟨rfl, hnext⟩
      obtain ⟨later, hlater⟩ := (hbegins.at?_pair_iff (by decide) hb).mp ⟨hat, hnext⟩
      exact hne later hlater
    rw [withoutCommentsFrom?_of_at? hat, if_neg hquote, if_neg (hpair (by decide) hline),
      if_neg (hpair (by decide) hblock), utf8Size_of_not_isWide hwide]

private theorem withoutCommentsFrom?_lineComment (hcs : cs = before ++ '/' :: '/' :: rest)
    {through : List Char} (hthrough : through = before ++ '/' :: '/' :: rest.takeWhile (!isLineBreak ·))
    {last : Nat} {kept : List Char} (hkept : slice? last (byteLength before) cs = some kept) :
    withoutCommentsFrom? cs last (byteLength before) =
      (withoutCommentsFrom? cs (byteLength through) (byteLength through)).map (kept ++ ·) := by
  have hbegins : Begins cs (byteLength before) ('/' :: '/' :: rest) := ⟨before, hcs, rfl⟩
  have hstop : skipWhile (!isLineBreak ·) (encode cs) (byteLength before) =
      byteLength through := by
    rw [skipWhile_eq (fun c d hc hd => by rw [isLineBreak_of_isWide hc, isLineBreak_of_isWide hd])
      hbegins, hthrough, byteLength_append]
    rfl
  have hpair := (hbegins.at?_pair_iff (by decide) (by decide)).mpr ⟨rest, rfl⟩
  have hquote : ¬ (('/' = '"' ∨ '/' = '\'') ∧
      opensLiteral (encode cs) (byteLength before) = true) :=
    fun hopens => absurd hopens.1 (by decide)
  rw [withoutCommentsFrom?_of_at? hpair.1, if_neg hquote, if_pos ⟨rfl, hpair.2⟩, hkept, hstop,
    Option.map_eq_bind]
  rfl

private theorem withoutCommentsFrom?_blockComment (hcs : cs = before ++ '/' :: '*' :: rest)
    {through : List Char} (hthrough : through = before ++ '/' :: '*' :: (splitBlockComment rest).1)
    {last : Nat} {kept : List Char} (hkept : slice? last (byteLength before) cs = some kept) :
    withoutCommentsFrom? cs last (byteLength before) =
      (withoutCommentsFrom? cs (byteLength through) (byteLength through)).map
        (kept ++ ' ' :: ·) := by
  have hbegins : Begins cs (byteLength before) ('/' :: '*' :: rest) := ⟨before, hcs, rfl⟩
  have hinside := hbegins.pair (by decide) (by decide)
  have hstop : blockCommentEnd (encode cs) (byteLength before + 2) =
      byteLength through := by
    rw [blockCommentEnd_eq hinside, hthrough, byteLength_append,
      byteLength_pair (by decide) (by decide), Nat.add_assoc]
  have hpair := (hbegins.at?_pair_iff (by decide) (by decide)).mpr ⟨rest, rfl⟩
  have hquote : ¬ (('/' = '"' ∨ '/' = '\'') ∧
      opensLiteral (encode cs) (byteLength before) = true) :=
    fun hopens => absurd hopens.1 (by decide)
  rw [withoutCommentsFrom?_of_at? hpair.1, if_neg hquote,
    if_neg (fun hline => by rw [hpair.2] at hline; exact absurd hline.2 (by decide)),
    if_pos ⟨rfl, hpair.2⟩, hkept, hinside.suffix?, hstop, Option.map_eq_bind]
  rfl

end

/-- From where a character begins, the removal copies what has been kept and then what is left of the
lexemes. -/
private theorem withoutCommentsFrom?_eq {cs rest : List Char} {lead : Lead}
    (flushed pending : List Char)
    (hcs : cs = flushed ++ pending ++ rest) (hlead : Lead.none.after (flushed ++ pending) = lead) :
    withoutCommentsFrom? cs (byteLength flushed) (byteLength (flushed ++ pending)) =
      some (pending ++ (lexemes lead rest).flatMap Lexeme.uncommented) := by
  fun_induction lexemes lead rest generalizing flushed pending with
  | case1 lead =>
    have hend : Begins cs (byteLength (flushed ++ pending)) [] := ⟨_, hcs, rfl⟩
    have hkept : Begins cs (byteLength flushed) pending := ⟨flushed, by simpa using hcs, rfl⟩
    have hnone := hend.at?_nil
    rw [withoutCommentsFrom?.eq_def]
    split
    · simp [hkept.suffix?]
    · simp_all
  | case2 lead c rest _ first ih =>
    subst hlead
    have hkept : slice? (byteLength flushed) (byteLength (flushed ++ pending)) cs = some pending := by
      rw [byteLength_append]
      exact Begins.slice? ⟨flushed, by rw [hcs, List.append_assoc], rfl⟩
    have htext : cs = flushed ++ pending ++ (first.1.text ++ first.2) := by
      rw [hcs, text_firstLexeme]
    rw [List.flatMap_cons]
    rcases firstLexeme_cases (Lead.none.after (flushed ++ pending)) c rest with
      ⟨hopens, hfirst⟩ | ⟨-, later, hcons, hfirst⟩ | ⟨-, later, hcons, hfirst⟩ |
      ⟨hopens, hline, hblock, hfirst⟩
    · simp only [first, hfirst, Lexeme.text, Lexeme.uncommented] at ih htext ⊢
      have hstep := ih flushed (pending ++ c :: (splitLiteral c rest).1)
        (by simpa only [List.append_assoc] using htext) (by simp)
      rw [withoutCommentsFrom?_literal hcs hopens, List.append_assoc, hstep, List.append_assoc]
    · -- What has been kept is copied at a comment, and nothing is pending behind it.
      simp only [first, hfirst, Lexeme.text, Lexeme.uncommented] at ih htext ⊢
      have hstep := ih (flushed ++ pending ++ '/' :: '/' :: later.takeWhile (!isLineBreak ·)) []
        (by simpa only [List.append_assoc, List.append_nil] using htext) (by simp)
      rw [List.append_nil] at hstep
      rw [withoutCommentsFrom?_lineComment (hcs.trans (by rw [hcons])) rfl hkept, hstep]
      rfl
    · simp only [first, hfirst, Lexeme.text, Lexeme.uncommented] at ih htext ⊢
      have hstep := ih (flushed ++ pending ++ '/' :: '*' :: (splitBlockComment later).1) []
        (by simpa only [List.append_assoc, List.append_nil] using htext) (by simp)
      rw [List.append_nil] at hstep
      rw [withoutCommentsFrom?_blockComment (hcs.trans (by rw [hcons])) rfl hkept, hstep]
      rfl
    · simp only [first, hfirst, Lexeme.text, Lexeme.uncommented] at ih htext ⊢
      have hstep := ih flushed (pending ++ [c])
        (by simpa only [List.append_assoc] using htext) (by simp)
      rw [withoutCommentsFrom?_plain hcs hopens hline hblock, List.append_assoc, hstep,
        List.append_assoc]

private theorem withoutCommentsFrom?_zero (cs : List Char) :
    withoutCommentsFrom? cs 0 0 = some (withoutComments cs) :=
  withoutCommentsFrom?_eq [] [] rfl rfl

private theorem endsIdent_at? {cs rest : List Char} {i : Nat} (h : Begins cs i rest) :
    endsIdent (at? (encode cs) i) = endsIdent rest.head? := by
  cases rest with
  | nil =>
    rw [h.at?_nil]
    rfl
  | cons c rest =>
    obtain ⟨d, hd, hdc⟩ := h.at?_head
    rw [hd, List.head?_cons, endsIdent, endsIdent, Option.any_some, Option.any_some,
      hdc.any_eq fun _ => IsWide.isNameChar]

/-- From the first offset that is left, the erasure copies what has been kept and then what erasing the
keyword leaves of the rest. -/
theorem withoutKeywordAt?_eq {keyword : List Char} (hk : keyword ≠ []) {cs rest : List Char}
    {offset : Nat} (flushed pending : List Char) (hcs : cs = flushed ++ pending ++ rest)
    (hoffset : byteLength (flushed ++ pending) = offset) :
    withoutKeywordAt? (byteLength keyword) cs (byteLength flushed)
        (matchOffsets keyword offset rest) =
      some (pending ++ eraseFrom keyword (flushed ++ pending).getLast? rest) := by
  have hlast : ∀ before, (before ++ keyword).getLast? = keyword.getLast? := fun before => by
    rw [List.getLast?_append, Option.or_of_isSome (by simpa using hk)]
  fun_induction matchOffsets keyword offset rest generalizing flushed pending with
  | case1 => contradiction
  | case2 offset rest after hmatch _ _ ih =>
    obtain rfl := after?_eq_some_iff.mp hmatch
    subst hoffset
    rw [← List.append_assoc] at hcs
    have hstop : byteLength (flushed ++ pending) + byteLength keyword =
        byteLength (flushed ++ pending ++ keyword) := (byteLength_append _ _).symm
    have hbehind : Begins cs (byteLength (flushed ++ pending ++ keyword)) after := ⟨_, hcs, rfl⟩
    have hkept : slice? (byteLength flushed) (byteLength (flushed ++ pending)) cs = some pending := by
      rw [byteLength_append]
      exact Begins.slice? ⟨flushed, by simpa using hcs, rfl⟩
    have hleft : cs = (flushed ++ pending) ++ (keyword ++ after) :=
      hcs.trans (List.append_assoc _ _ _)
    obtain ⟨left, hleft, hclass⟩ := left?_eq hleft
    have hends : endsIdent left = endsIdent (flushed ++ pending).getLast? := by
      rw [endsIdent, endsIdent, hclass isNameChar fun d hd => hd.isNameChar]
    have hle : decide (byteLength flushed ≤ byteLength (flushed ++ pending)) = true := by simp
    rw [hstop] at ih
    rw [withoutKeywordAt?, eraseFrom_of_after?_eq_some hk hmatch, hleft, hstop]
    simp only [bind, Option.bind_some]
    rw [hends, endsIdent_at? hbehind, hle, Bool.and_true]
    split
    · have hstep := ih (flushed ++ pending ++ keyword) [] (by simpa using hcs) (by simp)
      rw [List.append_nil, hlast] at hstep
      rw [hkept, hstep]
      rfl
    · have hstep := ih flushed (pending ++ keyword) (by simpa using hcs) (by simp)
      rw [← List.append_assoc, hlast] at hstep
      rw [hstep, List.append_assoc]
  | case3 offset hmatch =>
    have hkept : Begins cs (byteLength flushed) pending := ⟨flushed, by simpa using hcs, rfl⟩
    rw [withoutKeywordAt?, hkept.suffix?, eraseFrom_nil hk, List.append_nil]
  | case4 offset c rest hmatch ih =>
    subst hoffset
    have hstep := ih flushed (pending ++ [c]) (by simpa using hcs) (by simp [Nat.add_assoc])
    rw [hstep, eraseFrom_cons_of_after?_eq_none hmatch]
    simp

theorem prepare?_eq (keyword cs : List Char) : prepare? keyword cs = some (prepare keyword cs) := by
  rw [prepare?, withoutCommentsFrom?_zero, prepare]
  simp only [bind, Option.bind_some]
  split
  · rename_i hk
    rw [hk, withoutKeyword_nil]
    rfl
  · rename_i hk
    exact withoutKeywordAt?_eq hk [] [] rfl rfl

end Reflector.Bytes
