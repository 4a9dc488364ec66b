import Reflector.Class.HeaderGrammar
import Reflector.Proofs.Header
import Reflector.Proofs.Identifier

namespace Reflector

open Text

variable {keywords : List (List Char)}

/-- The header with a space in the place of each attribute. -/
def withoutAttributes (header : List Char) : List Char :=
  attributePattern.replace [' '] none header

private theorem replace_attributePattern_left (new : List Char) (left : Option Char)
    (cs : List Char) :
    attributePattern.replace new left cs = attributePattern.replace new none cs := by
  have hfind : attributePattern.find? left cs = attributePattern.find? none cs := by
    rw [Pattern.find?.eq_def, Pattern.find?.eq_def attributePattern none]
    rfl
  cases h : attributePattern.find? none cs with
  | none => rw [Pattern.replace_of_none h, Pattern.replace_of_none (hfind.trans h)]
  | some o => rw [Pattern.replace_of_some h, Pattern.replace_of_some (hfind.trans h)]

private theorem withoutAttributes_nil : withoutAttributes [] = [] :=
  Pattern.replace_of_none (Pattern.find?_nil _ _)

private theorem withoutAttributes_cons {c : Char} {cs : List Char} (h : attribute? (c :: cs) = none) :
    withoutAttributes (c :: cs) = c :: withoutAttributes cs := by
  rw [withoutAttributes, Pattern.replace_cons h, replace_attributePattern_left]
  rfl

private theorem withoutAttributes_attribute {inside : List Char} (h : ']' ∉ inside)
    (rest : List Char) :
    withoutAttributes (['[', '['] ++ inside ++ [']', ']'] ++ rest) = ' ' :: withoutAttributes rest := by
  rw [withoutAttributes, Pattern.replace_of_match (attribute?_append h rest),
    replace_attributePattern_left]
  rfl

private theorem head?_withoutAttributes (cs : List Char) :
    (withoutAttributes cs).head? = cs.head? ∨ (withoutAttributes cs).head? = some ' ' := by
  cases cs with
  | nil => exact Or.inl (by rw [withoutAttributes_nil])
  | cons c cs =>
    cases h : attribute? (c :: cs) with
    | none => exact Or.inl (by rw [withoutAttributes_cons h]; rfl)
    | some found =>
      rw [withoutAttributes, Pattern.replace_of_match h]
      exact Or.inr rfl

/-- Every colon is one of two, with another character behind them. -/
inductive NoLoneColon : List Char → Prop
  | nil : NoLoneColon []
  | char {c : Char} {text : List Char} : c ≠ ':' → NoLoneColon text → NoLoneColon (c :: text)
  | pair {c : Char} {text : List Char} : c ≠ ':' → NoLoneColon text →
      NoLoneColon (':' :: ':' :: c :: text)

namespace NoLoneColon

theorem append {a b : List Char} (ha : NoLoneColon a) (hb : NoLoneColon b) : NoLoneColon (a ++ b) := by
  induction ha with
  | nil => exact hb
  | char hc _ ih => exact .char hc ih
  | pair hc _ ih => exact .pair hc ih

private theorem of_not_mem {text : List Char} (h : ':' ∉ text) : NoLoneColon text := by
  induction text with
  | nil => exact .nil
  | cons c text ih =>
    rw [List.mem_cons, not_or] at h
    exact .char (Ne.symm h.1) (ih h.2)

end NoLoneColon

private theorem getLast?_append_ne {c : Char} {a b : List Char} (ha : a.getLast? ≠ some c)
    (hb : b.getLast? ≠ some c) : (a ++ b).getLast? ≠ some c := by
  rw [List.getLast?_append]
  cases hlast : b.getLast? with
  | none => exact ha
  | some d => rwa [hlast] at hb

private theorem ColonsInPairs.of_append {front text : List Char} (h : ColonsInPairs (front ++ text))
    (hfront : front.getLast? ≠ some ':') : ColonsInPairs text := by
  intro before n after htext hn hbefore hafter
  exact h (front ++ before) n after (by simp [htext]) hn (getLast?_append_ne hfront hbefore) hafter

private theorem ColonsInPairs.begins {text : List Char} (h : ColonsInPairs (':' :: text)) :
    ∃ after, text = ':' :: after ∧ after.head? ≠ some ':' := by
  let isColon := fun c => c == ':'
  have hrun : (':' :: text).takeWhile isColon =
      List.replicate ((':' :: text).takeWhile isColon).length ':' := by
    apply List.eq_replicate_of_mem
    intro c hc
    simpa [isColon] using List.all_eq_true.mp List.all_takeWhile c hc
  have hafter : ((':' :: text).dropWhile isColon).head? ≠ some ':' := by
    intro hhead
    have hnot := List.head?_dropWhile_not isColon (':' :: text)
    rw [hhead] at hnot
    exact absurd hnot (by decide)
  have htext : ':' :: text =
      [] ++ (':' :: text).takeWhile isColon ++ (':' :: text).dropWhile isColon := by
    rw [List.nil_append, List.takeWhile_append_dropWhile]
  rw [hrun] at htext
  have htwo := h [] _ _ htext (by simp [isColon]) (by simp) hafter
  rw [htwo] at htext
  exact ⟨_, (List.cons.inj htext).2, hafter⟩

private theorem ColonsInPairs.noLoneColon {text : List Char} (h : ColonsInPairs text)
    (hlast : text.getLast? ≠ some ':') : NoLoneColon text := by
  induction hlength : text.length using Nat.strongRecOn generalizing text with
  | _ n ih =>
    have hrest : ∀ front rest, text = front ++ rest → front ≠ [] → front.getLast? ≠ some ':' →
        NoLoneColon rest := by
      rintro front rest rfl hne hfront
      have hlt : rest.length < n := by
        have := List.length_pos_iff.mpr hne
        rw [← hlength, List.length_append]
        omega
      refine ih rest.length hlt (h.of_append hfront) ?_ rfl
      intro hrest
      exact hlast (by rw [List.getLast?_append, hrest]; rfl)
    cases text with
    | nil => exact .nil
    | cons c text =>
      by_cases hc : c = ':'
      · subst hc
        obtain ⟨after, rfl, hafter⟩ := h.begins
        cases after with
        | nil => exact absurd rfl hlast
        | cons d after =>
          have hd : d ≠ ':' := fun he => hafter (by rw [he]; rfl)
          exact .pair hd (hrest [':', ':', d] after rfl (by simp) (by simpa using hd))
      · exact .char hc (hrest [c] text rfl (by simp) (by simpa using hc))

private theorem NoLoneColon.colonsInPairs {text : List Char} (h : NoLoneColon text) :
    ColonsInPairs text := by
  have htail : ∀ {d : Char} {before : List Char}, (d :: before).getLast? ≠ some ':' →
      before.getLast? ≠ some ':' := by
    intro d before hne hlast
    exact hne (by rw [List.getLast?_cons, hlast]; rfl)
  induction h with
  | nil =>
    intro before n after htext hn _ _
    have hlength := congrArg List.length htext
    simp only [List.length_nil, List.length_append, List.length_replicate] at hlength
    omega
  | @char c text hc _ ih =>
    intro before n after htext hn hbefore hafter
    cases before with
    | nil =>
      obtain ⟨k, rfl⟩ := Nat.exists_eq_add_one_of_ne_zero (Nat.ne_of_gt hn)
      exact absurd (List.cons.inj htext).1 hc
    | cons d before => exact ih before n after (List.cons.inj htext).2 hn (htail hbefore) hafter
  | @pair c text hc _ ih =>
    intro before n after htext hn hbefore hafter
    match before, htext, hbefore with
    | [], htext, _ =>
      match n, htext, hn with
      | 1, htext, _ => exact absurd (congrArg List.head? (List.cons.inj htext).2).symm hafter
      | 2, _, _ => rfl
      | n + 3, htext, _ =>
        exact absurd (List.cons.inj (List.cons.inj (List.cons.inj htext).2).2).1 hc
    | [d], htext, hbefore =>
      exact absurd (congrArg some (List.cons.inj htext).1).symm hbefore
    | [d, e], htext, hbefore =>
      exact absurd (congrArg some (List.cons.inj (List.cons.inj htext).2).1).symm hbefore
    | d :: e :: g :: before, htext, hbefore =>
      have hrest := (List.cons.inj (List.cons.inj (List.cons.inj htext).2).2).2
      exact ih before n after hrest hn (htail (htail (htail hbefore))) hafter

private theorem beforeColon?_left {left : Option Char} (h : left ≠ some ':') (cs : List Char) :
    beforeColon? left cs = beforeColon? none cs := by
  cases cs with
  | nil => rfl
  | cons c cs =>
    have hleft : (left != some ':') = true := by simpa using h
    have hnone : ((none : Option Char) != some ':') = true := rfl
    rw [beforeColon?, beforeColon?, hleft, hnone]

private theorem NoLoneColon.beforeColon?_append {front : List Char} (h : NoLoneColon front)
    (left : Option Char) (hleft : left ≠ some ':') (rest : List Char) :
    beforeColon? left (front ++ rest) = (beforeColon? none rest).map (front ++ ·) := by
  induction h generalizing left with
  | nil => simp [beforeColon?_left hleft]
  | @char c text hc _ ih =>
    rw [List.cons_append, beforeColon?, if_neg (by simp [hc]), ih (some c) (by simpa using hc)]
    simp [Function.comp_def]
  | @pair c text hc _ ih =>
    rw [List.cons_append, List.cons_append, List.cons_append, beforeColon?, if_neg (by simp),
      beforeColon?, if_neg (by simp), beforeColon?, if_neg (by simp [hc]),
      ih (some c) (by simpa using hc)]
    simp [Function.comp_def]

/-- The brace, or the colon before a base clause, ends the part with the name. -/
private theorem nameEnd_append {front ending : List Char} (h : NoLoneColon front)
    (hlast : front.getLast? ≠ some '{')
    (hending : ending = ['{'] ∨ ∃ text, ending = ':' :: text ∧ text.head? ≠ some ':') :
    nameEnd (front ++ ending) = front := by
  rw [nameEnd, h.beforeColon?_append none (by simp)]
  rcases hending with rfl | ⟨text, rfl, htext⟩
  · have hnone : beforeColon? none ['{'] = none := beforeColon?_eq_none (by decide) none
    have hkeep : trimEnd (· == '{') front = front := by
      have hfront : ∀ c ∈ front.getLast?, (c == '{') = false := by
        rintro c hc
        rw [beq_eq_false_iff_ne]
        rintro rfl
        exact hlast hc
      simpa using trimEnd_append hfront []
    rw [hnone, Option.map_none, Option.getD_none, trimEnd_concat_of_neg (by decide),
      trimEnd_concat_of_pos (by decide), hkeep]
  · have hcolon : beforeColon? none (':' :: text) = some [] := by
      rw [beforeColon?, if_pos (by simpa using htext)]
    rw [hcolon, Option.map_some, Option.getD_some, List.append_nil]

/-- Without its attributes the text is the other one, whatever follows it, and has no single colon. -/
structure Cleans (text cleaned : List Char) : Prop where
  withoutAttributes_append : ∀ rest,
    withoutAttributes (text ++ rest) = cleaned ++ withoutAttributes rest
  noLoneColon : NoLoneColon cleaned

theorem Cleans.append {a a' b b' : List Char} (ha : Cleans a a') (hb : Cleans b b') :
    Cleans (a ++ b) (a' ++ b') where
  withoutAttributes_append rest := by
    rw [List.append_assoc, ha.withoutAttributes_append, hb.withoutAttributes_append,
      List.append_assoc]
  noLoneColon := ha.noLoneColon.append hb.noLoneColon

private theorem cleans_self {text : List Char} (hbracket : '[' ∉ text) (hcolon : NoLoneColon text) :
    Cleans text text := by
  refine ⟨fun rest => ?_, hcolon⟩
  clear hcolon
  induction text with
  | nil => rfl
  | cons c text ih =>
    rw [List.mem_cons, not_or] at hbracket
    rw [List.cons_append, withoutAttributes_cons (attribute?_cons_of_ne (Ne.symm hbracket.1) _),
      ih hbracket.2]
    rfl

/-- Of a gap only blanks are left. -/
private theorem HeaderGap.cleans {gap : List Char} (h : HeaderGap gap) :
    ∃ blanks, Cleans gap blanks ∧ (∀ c ∈ blanks, isBlank c = true) ∧ (gap ≠ [] → blanks ≠ []) := by
  induction h with
  | nil => exact ⟨[], cleans_self (by simp) .nil, by simp, by simp⟩
  | @blank c gap hc _ ih =>
    obtain ⟨blanks, hclean, hblanks, -⟩ := ih
    have hother : ∀ d, isBlank d = false → c ≠ d := fun d => ne_of_class hc
    have hbracket : '[' ∉ [c] := by simpa using (hother '[' (by decide)).symm
    have hfirst : Cleans [c] [c] :=
      cleans_self hbracket (.char (hother ':' (by decide)) .nil)
    exact ⟨c :: blanks, hfirst.append hclean, List.forall_mem_cons.mpr ⟨hc, hblanks⟩, by simp⟩
  | @bracketed inside gap hinside _ ih =>
    obtain ⟨blanks, hclean, hblanks, -⟩ := ih
    refine ⟨' ' :: blanks, ⟨fun rest => ?_, .char (by decide) hclean.noLoneColon⟩,
      List.forall_mem_cons.mpr ⟨rfl, hblanks⟩, by simp⟩
    rw [List.append_assoc, withoutAttributes_attribute hinside, hclean.withoutAttributes_append]
    rfl

private theorem IsHeaderWord.cleans {word : List Char} (h : IsHeaderWord word) :
    Cleans word word := by
  have hbracket : '[' ∉ word := fun hm => (h.plain '[' hm).2 (by simp)
  have hcolon : ':' ∉ word := fun hm => (h.plain ':' hm).2 (by simp)
  exact cleans_self hbracket (.of_not_mem hcolon)

private theorem HeaderWords.cleans {words : List Char} (h : HeaderWords words) :
    ∃ cleaned, Cleans words cleaned := by
  induction h with
  | nil => exact ⟨[], cleans_self (by simp) .nil⟩
  | cons hgap _ hword _ ih =>
    obtain ⟨blanks, hblanks, -⟩ := hgap.cleans
    obtain ⟨cleaned, hcleaned⟩ := ih
    exact ⟨_, (hblanks.append hword.cleans).append hcleaned⟩

private theorem IsClassName.cleans {name : List Char} (h : IsClassName keywords name) :
    Cleans name name := by
  have hbracket : '[' ∉ name := fun hm => (h.plain '[' hm).2 (by simp)
  exact cleans_self hbracket (h.colonsInPairs.noLoneColon h.not_ends)

theorem cleans_identifier {word : List Char} (h : isIdentifier word = true) : Cleans word word := by
  have hother : ∀ d, isNameChar d = false → d ∉ word := by
    intro d hd hm
    exact absurd (isNameChar_of_mem_isIdentifier h d hm) (by simp [hd])
  exact cleans_self (hother '[' (by decide)) (.of_not_mem (hother ':' (by decide)))

/-- A word stands apart behind this text: without its attributes it is empty or ends with a blank. -/
def OpensWord (lead : List Char) : Prop :=
  ∃ cleaned, Cleans lead cleaned ∧ ∀ c ∈ cleaned.getLast?, isBlank c = true

theorem opensWord_nil : OpensWord [] :=
  ⟨[], cleans_self (by simp) .nil, by simp⟩

theorem Cleans.opensWord_gap {lead cleaned gap : List Char} (h : Cleans lead cleaned)
    (hgap : HeaderGap gap) (hne : gap ≠ []) : OpensWord (lead ++ gap) := by
  obtain ⟨blanks, hclean, hblanks, hsome⟩ := hgap.cleans
  refine ⟨cleaned ++ blanks, h.append hclean, fun c hc => ?_⟩
  rw [List.getLast?_append_of_ne_nil _ (hsome hne)] at hc
  exact hblanks c (List.mem_of_getLast? hc)

private theorem HeaderEnding.withoutAttributes_eq {ending : List Char} (h : HeaderEnding ending) :
    withoutAttributes ending = ['{'] ∨
      ∃ text, withoutAttributes ending = ':' :: text ∧ text.head? ≠ some ':' := by
  cases h with
  | brace =>
    have hbrace : withoutAttributes ['{'] = '{' :: withoutAttributes [] := withoutAttributes_cons rfl
    exact Or.inl (by rw [hbrace, withoutAttributes_nil])
  | @bases text htext _ =>
    have hcolon : withoutAttributes (':' :: text) = ':' :: withoutAttributes text :=
      withoutAttributes_cons (attribute?_cons_of_ne (by decide) text)
    refine Or.inr ⟨withoutAttributes text, hcolon, ?_⟩
    rcases head?_withoutAttributes text with hhead | hhead
    · rwa [hhead]
    · simp [hhead]

/-- The last word of a header before its ending is the name, unless it is a keyword. -/
theorem headerName_eq {lead word gap ending : List Char} (hlead : OpensWord lead)
    (hword : Cleans word word) (hne : word ≠ []) (hsolid : ∀ c ∈ word, isBlank c = false ∧ c ≠ '{')
    (hgap : HeaderGap gap) (hending : HeaderEnding ending) :
    headerName keywords (lead ++ word ++ gap ++ ending) =
      if word ∈ keywords then
        .error (.unnamedClass (String.ofList (trim isBlank (lead ++ word ++ gap ++ ending))))
      else .ok (String.ofList word) := by
  obtain ⟨cleaned, hcleaned, hblank⟩ := hlead
  obtain ⟨blanks, hblanks, hall, -⟩ := hgap.cleans
  have hfront := (hcleaned.append hword).append hblanks
  have hlast : (cleaned ++ word ++ blanks).getLast? ≠ some '{' := by
    intro hbrace
    rw [List.append_assoc, List.getLast?_append_of_ne_nil _ (by simp [hne])] at hbrace
    rcases List.mem_append.mp (List.mem_of_getLast? hbrace) with hm | hm
    · exact (hsolid '{' hm).2 rfl
    · exact absurd (hall '{' hm) (by decide)
  have hnameEnd : nameEnd (withoutAttributes (lead ++ word ++ gap ++ ending)) =
      cleaned ++ word ++ blanks := by
    rw [hfront.withoutAttributes_append]
    exact nameEnd_append hfront.noLoneColon hlast hending.withoutAttributes_eq
  have hlastWord := lastWord?_append hblank hne (fun c hc => (hsolid c hc).1) hall
  have hname : headerName? keywords (lead ++ word ++ gap ++ ending) =
      if word ∈ keywords then none else some word := by
    change (lastWord? (nameEnd (withoutAttributes _))).bind _ = _
    rw [hnameEnd, hlastWord, Option.bind_some]
    by_cases hm : word ∈ keywords <;> simp [hm, guard]
  rw [headerName, hname]
  by_cases hm : word ∈ keywords <;> simp [hm]

theorem headerName_identifier {lead word gap ending : List Char} (hlead : OpensWord lead)
    (hword : isIdentifier word = true) (hgap : HeaderGap gap) (hending : HeaderEnding ending) :
    headerName keywords (lead ++ word ++ gap ++ ending) =
      if word ∈ keywords then
        .error (.unnamedClass (String.ofList (trim isBlank (lead ++ word ++ gap ++ ending))))
      else .ok (String.ofList word) := by
  have hne : word ≠ [] := by
    rintro rfl
    contradiction
  have hsolid : ∀ c ∈ word, isBlank c = false ∧ c ≠ '{' := by
    intro c hc
    have hchar := isNameChar_of_mem_isIdentifier hword c hc
    exact ⟨isBlank_of_isNameChar hchar, ne_of_class hchar (by decide)⟩
  exact headerName_eq hlead (cleans_identifier hword) hne hsolid hgap hending

/-- The name in a header is read back whatever attributes, words, blanks and bases stand around it, and
a header without one is refused. -/
theorem headerName_spelled {name? : Option (List Char)} {header : List Char}
    (hk : ∀ keyword ∈ keywords, isIdentifier keyword = true)
    (h : SpellsHeader keywords name? header) :
    headerName keywords header =
      match name? with
      | some name => .ok (String.ofList name)
      | none => .error (.unnamedClass (String.ofList (trim isBlank header))) := by
  cases h with
  | @named keyword words gap name trail ending hmem hwords hgap hne hname htrail hending =>
    obtain ⟨cleaned, hcleaned⟩ := hwords.cleans
    have hlead : OpensWord (keyword ++ words ++ gap) :=
      ((cleans_identifier (hk keyword hmem)).append hcleaned).opensWord_gap hgap hne
    have hsolid : ∀ c ∈ name, isBlank c = false ∧ c ≠ '{' := by
      intro c hc
      obtain ⟨hblank, hout⟩ := hname.plain c hc
      refine ⟨hblank, ?_⟩
      rintro rfl
      exact hout (by simp)
    rw [headerName_eq hlead hname.cleans hname.ne_nil hsolid htrail hending,
      if_neg hname.not_keyword]
  | @nameless keyword gap ending hmem hgap hending =>
    change headerName keywords ([] ++ keyword ++ gap ++ ending) = _
    rw [headerName_identifier opensWord_nil (hk keyword hmem) hgap hending, if_pos hmem]
    rfl

def macroHeader : List Char :=
  classText ++ ([' '] ++ ['A', 'P', 'I'] ++ []) ++ ("[[a:b]]".toList ++ [' ']) ++
    ['n', 's', ':', ':', 'P'] ++ [' '] ++ ": public ::B \x7b".toList

private theorem isClassName_scoped : IsClassName [classText] ['n', 's', ':', ':', 'P'] where
  ne_nil := by simp
  plain := by simp [isBlank]
  not_keyword := by decide
  colonsInPairs := by
    have hpair : NoLoneColon [':', ':', 'P'] := .pair (by decide) .nil
    exact (NoLoneColon.char (by decide) (.char (by decide) hpair)).colonsInPairs
  not_ends := by decide

def namelessHeader : List Char :=
  classText ++ "[[x]]".toList ++ ": B \x7b".toList

theorem headerName_spelled_macroHeader :
    headerName [classText] macroHeader = .ok "ns::P" ∧
      headerName [classText] namelessHeader = .error (.unnamedClass "class[[x]]: B \x7b") := by
  have hk : ∀ keyword ∈ [classText], isIdentifier keyword = true :=
    List.forall_mem_singleton.mpr rfl
  have hmem : classText ∈ [classText] := List.mem_singleton_self _
  have hword : IsHeaderWord ['A', 'P', 'I'] := ⟨by decide, by simp [isBlank]⟩
  have hspace : HeaderGap [' '] := .blank rfl .nil
  have hgap : HeaderGap ("[[a:b]]".toList ++ [' ']) :=
    .bracketed (show ']' ∉ "a:b".toList by decide) hspace
  have hmark : HeaderGap "[[x]]".toList := .bracketed (show ']' ∉ "x".toList by decide) .nil
  have hnamed : SpellsHeader [classText] (some ['n', 's', ':', ':', 'P']) macroHeader :=
    .named hmem (.cons hspace (by decide) hword .nil) hgap (by decide) isClassName_scoped hspace
      (.bases (by decide) (by decide))
  have hnameless : SpellsHeader [classText] none namelessHeader :=
    .nameless hmem hmark (.bases (by decide) (by decide))
  exact ⟨headerName_spelled hk hnamed, headerName_spelled hk hnameless⟩

end Reflector
