import Reflector.Class.WellFormed
import Reflector.Proofs.Lexeme
import Reflector.Proofs.Search

namespace Reflector

open Source Text

theorem next_of_not_brace {n : Nesting} {c : Char} (ho : c ≠ '{') (hc : c ≠ '}') :
    n.next c = n := by
  rw [Nesting.next, if_neg ho, if_neg hc]

private theorem opened_next {n : Nesting} {c : Char} (hn : n.opened = false)
    (h : (n.next c).opened = true) : c = '{' := by
  by_cases ho : c = '{'
  · exact ho
  · exfalso
    by_cases hc : c = '}'
    · simp [Nesting.next, hc, hn] at h
    · rw [next_of_not_brace ho hc, hn] at h
      contradiction

theorem brace_of_isClosed_next {n : Nesting} {c : Char} (hn : n.isClosed = false)
    (h : (n.next c).isClosed = true) : c = '{' ∨ c = '}' := by
  by_cases ho : c = '{'
  · exact Or.inl ho
  · by_cases hc : c = '}'
    · exact Or.inr hc
    · rw [next_of_not_brace ho hc, hn] at h
      contradiction

def EndsWithBrace (text : List Char) : Prop :=
  ∃ inside c, text = inside ++ [c] ∧ (c = '{' ∨ c = '}')

private theorem closeBlock_ends {nesting : Nesting} {lead : Lead} {cs text rest : List Char}
    (h : closeBlock nesting lead cs = some (text, rest)) (hn : nesting.isClosed = false) :
    EndsWithBrace text := by
  fun_induction closeBlock nesting lead cs generalizing text rest with
  | case1 => contradiction
  | case2 nesting lead c cs ho _ literal =>
    rename_i ih
    obtain ⟨⟨t, r⟩, ht, he⟩ := Option.map_eq_some_iff.1 h
    simp only [Prod.mk.injEq] at he
    obtain ⟨rfl, rfl⟩ := he
    obtain ⟨inside, d, rfl, hd⟩ := ih ht hn
    exact ⟨literal ++ inside, d, by simp, hd⟩
  | case3 nesting lead c cs ho hclosed =>
    simp only [Option.some.injEq, Prod.mk.injEq] at h
    obtain ⟨rfl, rfl⟩ := h
    exact ⟨[], c, rfl, brace_of_isClosed_next hn hclosed⟩
  | case4 nesting lead c cs ho hclosed ih =>
    obtain ⟨⟨t, r⟩, ht, he⟩ := Option.map_eq_some_iff.1 h
    simp only [Prod.mk.injEq] at he
    obtain ⟨rfl, rfl⟩ := he
    obtain ⟨inside, d, rfl, hd⟩ := ih ht (by simpa using hclosed)
    exact ⟨c :: inside, d, rfl, hd⟩

private theorem closeBlock_opens {nesting : Nesting} {lead : Lead} {cs text rest : List Char}
    (h : closeBlock nesting lead cs = some (text, rest)) (hn : nesting.opened = false) :
    '{' ∈ text := by
  fun_induction closeBlock nesting lead cs generalizing text rest with
  | case1 => contradiction
  | case2 nesting lead c cs ho _ literal =>
    rename_i ih
    obtain ⟨⟨t, r⟩, ht, he⟩ := Option.map_eq_some_iff.1 h
    simp only [Prod.mk.injEq] at he
    obtain ⟨rfl, rfl⟩ := he
    exact List.mem_append_right _ (ih ht hn)
  | case3 nesting lead c cs ho hclosed =>
    simp only [Option.some.injEq, Prod.mk.injEq] at h
    obtain ⟨rfl, rfl⟩ := h
    rw [Nesting.isClosed, Bool.and_eq_true] at hclosed
    rw [opened_next hn hclosed.1]
    exact List.mem_singleton_self _
  | case4 nesting lead c cs ho hclosed ih =>
    obtain ⟨⟨t, r⟩, ht, he⟩ := Option.map_eq_some_iff.1 h
    simp only [Prod.mk.injEq] at he
    obtain ⟨rfl, rfl⟩ := he
    by_cases hnext : (nesting.next c).opened = false
    · exact List.mem_cons_of_mem _ (ih ht hnext)
    · obtain rfl := opened_next hn (by simpa using hnext)
      exact List.mem_cons_self

private theorem splitLiteral_append_right {quote : Char} {cs : List Char}
    (h : (splitLiteral quote cs).2 ≠ [])
    (more : List Char) :
    splitLiteral quote (cs ++ more) =
      ((splitLiteral quote cs).1, (splitLiteral quote cs).2 ++ more) := by
  obtain ⟨c, rest, hrest⟩ := List.exists_cons_of_ne_nil h
  have hhead : ((splitLiteral quote cs).2 ++ more).head? = (splitLiteral quote cs).2.head? := by
    rw [hrest]
    rfl
  have htail := (splitLiteral_tail quote cs).congr (Or.inr hhead)
  calc splitLiteral quote (cs ++ more)
      = splitLiteral quote ((splitLiteral quote cs).1 ++ ((splitLiteral quote cs).2 ++ more)) := by
        rw [← List.append_assoc, splitLiteral_append]
    _ = _ := htail.splitLiteral_append

/-- A block that closes does so with more text behind it, too. -/
theorem closeBlock_append_right {nesting : Nesting} {lead : Lead} {cs text rest : List Char}
    (h : closeBlock nesting lead cs = some (text, rest)) (more : List Char) :
    closeBlock nesting lead (cs ++ more) = some (text, rest ++ more) := by
  fun_induction closeBlock nesting lead cs generalizing text rest with
  | case1 => contradiction
  | case2 nesting lead c cs ho _ literal =>
    rename_i ih
    obtain ⟨⟨t, r⟩, ht, he⟩ := Option.map_eq_some_iff.1 h
    obtain ⟨rfl, rfl⟩ := Prod.mk.inj he
    have hne : (splitLiteral c cs).2 ≠ [] := by
      intro hnil
      rw [hnil, closeBlock] at ht
      contradiction
    rw [List.cons_append, closeBlock, if_pos ho, splitLiteral_append_right hne]
    simp only [literal] at ih ht
    simp only [literal, ih ht, Option.map_some]
  | case3 nesting lead c cs ho hclosed =>
    obtain ⟨rfl, rfl⟩ := Prod.mk.inj (Option.some.inj h)
    rw [List.cons_append, closeBlock, if_neg ho, if_pos hclosed]
  | case4 nesting lead c cs ho hclosed ih =>
    obtain ⟨⟨t, r⟩, ht, he⟩ := Option.map_eq_some_iff.1 h
    obtain ⟨rfl, rfl⟩ := Prod.mk.inj he
    rw [List.cons_append, closeBlock, if_neg ho, if_neg hclosed, ih ht]
    rfl

variable {lead : Lead} {cs text rest : List Char}

theorem splitBlock_ends (h : splitBlock lead cs = some (text, rest)) : EndsWithBrace text :=
  closeBlock_ends h rfl

theorem EndsWithBrace.after (h : EndsWithBrace text) (lead : Lead) : lead.after text = .none := by
  obtain ⟨inside, c, rfl, hc⟩ := h
  apply Lead.after_concat_of_not_isNumberChar
  rcases hc with rfl | rfl <;> decide

theorem EndsWithBrace.append_left (h : EndsWithBrace text) (before : List Char) :
    EndsWithBrace (before ++ text) := by
  obtain ⟨inside, c, rfl, hc⟩ := h
  exact ⟨before ++ inside, c, (List.append_assoc _ _ _).symm, hc⟩

theorem prefix_splitBlock {before after : List Char}
    (h : splitBlock lead (before ++ '{' :: after) = some (text, rest)) (hb : '{' ∉ before) :
    before ++ ['{'] <+: text := by
  obtain ⟨-, hs⟩ := splitBlock_sound h
  obtain ⟨e, rfl, -⟩ := exists_append_of_first hs.symm hb (closeBlock_opens h rfl)
  exact ⟨e, by simp⟩

/-- Over this text the block goes on: the brace count and the lead in front of it become those behind
it. -/
def ReadsOn (nesting : Nesting) (lead : Lead) (text : List Char) (nesting' : Nesting)
    (lead' : Lead) : Prop :=
  ∀ cs, closeBlock nesting lead (text ++ cs) =
    (closeBlock nesting' lead' cs).map fun (block, rest) => (text ++ block, rest)

namespace ReadsOn

variable {nesting nesting' nesting'' : Nesting} {lead lead' lead'' : Lead}

theorem refl (nesting : Nesting) (lead : Lead) : ReadsOn nesting lead [] nesting lead := by
  intro cs
  simp

theorem trans {a b : List Char} (ha : ReadsOn nesting lead a nesting' lead')
    (hb : ReadsOn nesting' lead' b nesting'' lead'') :
    ReadsOn nesting lead (a ++ b) nesting'' lead'' := by
  intro cs
  rw [List.append_assoc, ha, hb, Option.map_map]
  simp [Function.comp_def]

theorem of_isFlat {c : Char} (hc : isFlat c = true) (hn : nesting.isClosed = false) (lead : Lead) :
    ReadsOn nesting lead [c] nesting (lead.next c) := by
  intro cs
  simp only [isFlat, Bool.and_eq_true, bne_iff_ne] at hc
  obtain ⟨⟨⟨hquote, hapostrophe⟩, hopen⟩, hclose⟩ := hc
  have hplain : lead.opens c = false := by simp [Lead.opens, hquote, hapostrophe]
  rw [List.singleton_append, closeBlock, if_neg (by simp [hplain]), next_of_not_brace hopen hclose,
    if_neg (by simp [hn])]
  rfl

theorem of_forall_isFlat {text : List Char} (htext : ∀ c ∈ text, isFlat c = true)
    (hn : nesting.isClosed = false) (lead : Lead) :
    ReadsOn nesting lead text nesting (lead.after text) := by
  induction text generalizing lead with
  | nil => exact refl nesting lead
  | cons c text ih =>
    obtain ⟨hc, htext⟩ := List.forall_mem_cons.mp htext
    exact (of_isFlat hc hn lead).trans (ih htext (lead.next c))

private theorem of_brace {c : Char} (hc : c = '{' ∨ c = '}') (hn : (nesting.next c).isClosed = false)
    (lead : Lead) : ReadsOn nesting lead [c] (nesting.next c) .none := by
  intro cs
  have hplain : lead.opens c = false := by
    rcases hc with rfl | rfl <;> cases lead <;> rfl
  have hnext : lead.next c = .none := by
    apply Lead.next_of_not_isNumberChar
    rcases hc with rfl | rfl <;> decide
  rw [List.singleton_append, closeBlock, if_neg (by simp [hplain]), if_neg (by simp [hn]), hnext]
  rfl

private theorem of_literal {quote : Char} {body : List Char} (ho : lead.opens quote = true)
    (h : LiteralBody quote body) (nesting : Nesting) :
    ReadsOn nesting lead (quote :: body ++ [quote]) nesting
      (lead.after (quote :: body ++ [quote])) := by
  intro cs
  have hquote : quote ≠ '\\' ∧ quote ≠ '\n' := by
    simp only [Lead.opens, Bool.or_eq_true, Bool.and_eq_true, beq_iff_eq] at ho
    rcases ho with rfl | ⟨rfl, -⟩ <;> decide
  have htail : LiteralTail quote (body ++ [quote]) cs := by
    induction h with
    | nil => exact .closed hquote.1 hquote.2
    | char hb hn hq _ ih => exact .other _ hb hn hq ih
    | escape c _ ih => exact .escape c ih
  rw [List.cons_append, List.cons_append, closeBlock, if_pos ho, htail.splitLiteral_append]

end ReadsOn

/-- Nested text is read to its end, and the depth is the same behind it. -/
private theorem NestedText.readsOn {left : Char} {text : List Char} (h : NestedText left text)
    {lead : Lead}
    (hlead : isNumberChar left = false → lead = .none) {depth : Int} (hdepth : 0 < depth) :
    ∃ lead', ReadsOn ⟨depth, true⟩ lead text ⟨depth, true⟩ lead' := by
  have hn : ∀ {depth : Int}, 0 < depth → (⟨depth, true⟩ : Nesting).isClosed = false := by
    intro depth hdepth
    simpa [Nesting.isClosed] using Int.ne_of_gt hdepth
  -- The depth stays positive, so that no brace inside the text closes the block around it.
  induction h generalizing lead depth with
  | nil => exact ⟨lead, .refl _ lead⟩
  | @plain left c text hc _ ih =>
    obtain ⟨lead', htext⟩ := ih (fun hnumber => Lead.next_of_not_isNumberChar hnumber lead) hdepth
    exact ⟨lead', (ReadsOn.of_isFlat hc (hn hdepth) lead).trans htext⟩
  | @string left body text hbody _ ih =>
    obtain ⟨lead', htext⟩ := ih (fun hnumber =>
      Lead.after_concat_of_not_isNumberChar hnumber lead ('"' :: body)) hdepth
    refine ⟨lead', ?_⟩
    simpa using (ReadsOn.of_literal rfl hbody ⟨depth, true⟩).trans htext
  | @char left body text hleft hbody _ ih =>
    obtain rfl := hlead hleft
    obtain ⟨lead', htext⟩ := ih (fun hnumber => absurd hnumber (by decide)) hdepth
    refine ⟨lead', ?_⟩
    simpa using (ReadsOn.of_literal rfl hbody ⟨depth, true⟩).trans htext
  | @block left inside text _ _ ihinside ih =>
    have hdeep : 0 < depth + 1 := Int.add_pos hdepth Int.one_pos
    have hnone : Lead.none = .none := rfl
    obtain ⟨leadInside, hinside⟩ := ihinside (fun _ => hnone) hdeep
    obtain ⟨lead', htext⟩ := ih (fun _ => hnone) hdepth
    have hback : (⟨depth + 1, true⟩ : Nesting).next '}' = ⟨depth, true⟩ := by simp [Nesting.next]
    have hopen : ReadsOn ⟨depth, true⟩ lead ['{'] ⟨depth + 1, true⟩ .none :=
      .of_brace (Or.inl rfl) (hn hdeep) lead
    have hclose : ReadsOn ⟨depth + 1, true⟩ leadInside ['}'] ⟨depth, true⟩ .none := by
      rw [← hback]
      exact .of_brace (Or.inr rfl) (by rw [hback]; exact hn hdepth) leadInside
    refine ⟨lead', ?_⟩
    simpa using ((hopen.trans hinside).trans hclose).trans htext

theorem nestedText_of_forall_isFlat {text : List Char} (h : ∀ c ∈ text, isFlat c = true)
    (left : Char) : NestedText left text := by
  induction text generalizing left with
  | nil => exact .nil
  | cons c text ih =>
    obtain ⟨hc, htext⟩ := List.forall_mem_cons.mp h
    exact .plain hc (ih htext c)

theorem splitBlock_of_nestedText {front inside : List Char} (lead : Lead) (cs : List Char)
    (hfront : ∀ c ∈ front, isFlat c = true) (hinside : NestedText '{' inside) :
    splitBlock lead (front ++ '{' :: (inside ++ '}' :: cs)) =
      some (front ++ '{' :: (inside ++ ['}']), cs) := by
  have hnone : Lead.none = .none := rfl
  obtain ⟨lead', hnested⟩ := hinside.readsOn (fun _ => hnone) Int.one_pos
  have hopen : ReadsOn {} (lead.after front) ['{'] ⟨1, true⟩ .none :=
    .of_brace (Or.inl rfl) rfl _
  have hclose : closeBlock ⟨1, true⟩ lead' ('}' :: cs) = some (['}'], cs) := by
    have hplain : lead'.opens '}' = false := by cases lead' <;> rfl
    rw [closeBlock, if_neg (by simp [hplain])]
    rfl
  have hread := ((ReadsOn.of_forall_isFlat hfront rfl lead).trans hopen).trans hnested ('}' :: cs)
  rw [hclose] at hread
  simpa [splitBlock] using hread

end Reflector
