import Reflector.Proofs.Header
import Reflector.Text.LineEnding
import Reflector.Source.Comment

namespace Reflector.Text

open Source (isLineBreak)

variable {p : Char → Bool}

private theorem takeWhile_crlf (h : p '\r' = p '\n') (cs : List Char) :
    (crlf cs).takeWhile p = crlf (cs.takeWhile p) := by
  induction cs with
  | nil => rfl
  | cons c cs ih =>
    by_cases hc : c = '\n'
    · subst hc
      cases hp : p '\n' with
      | true => simp [h, hp, ih]
      | false => simp [h, hp]
    · rw [crlf_cons hc, List.takeWhile_cons, List.takeWhile_cons]
      split
      · rw [ih, crlf_cons hc]
      · rfl

private theorem dropWhile_crlf (h : p '\r' = p '\n') (cs : List Char) :
    (crlf cs).dropWhile p = crlf (cs.dropWhile p) := by
  induction cs with
  | nil => rfl
  | cons c cs ih =>
    by_cases hc : c = '\n'
    · subst hc
      cases hp : p '\n' with
      | true => simp [h, hp, ih]
      | false => simp [h, hp]
    · rw [crlf_cons hc, List.dropWhile_cons, List.dropWhile_cons]
      split
      · exact ih
      · rw [crlf_cons hc]

private theorem trimEnd_crlf (h : p '\r' = p '\n') (cs : List Char) :
    trimEnd p (crlf cs) = crlf (trimEnd p cs) := by
  induction cs using List.reverseRecOn with
  | nil => rfl
  | append_singleton cs c ih =>
    rw [crlf_append]
    by_cases hc : c = '\n'
    · subst hc
      have hsplit : crlf cs ++ crlf ['\n'] = crlf cs ++ ['\r'] ++ ['\n'] := by simp
      rw [hsplit]
      cases hp : p '\n' with
      | true =>
        rw [trimEnd_concat_of_pos hp, trimEnd_concat_of_pos (h.trans hp), ih,
          trimEnd_concat_of_pos hp]
      | false =>
        rw [trimEnd_concat_of_neg hp, trimEnd_concat_of_neg hp, crlf_append, ← hsplit]
    · have hlast : crlf [c] = [c] := crlf_cons hc []
      rw [hlast]
      cases hp : p c with
      | true => rw [trimEnd_concat_of_pos hp, trimEnd_concat_of_pos hp, ih]
      | false => rw [trimEnd_concat_of_neg hp, trimEnd_concat_of_neg hp, crlf_append, hlast]

private theorem takeWhile_reverse_crlf (hn : p '\n' = false) (cs : List Char) :
    (crlf cs).reverse.takeWhile p = cs.reverse.takeWhile p := by
  induction cs using List.reverseRecOn with
  | nil => rfl
  | append_singleton cs c ih =>
    by_cases hc : c = '\n'
    · subst hc
      simp [hn]
    · rw [crlf_append, crlf_cons hc, crlf_nil, List.reverse_append, List.reverse_append,
        List.reverse_singleton, List.singleton_append, List.singleton_append, List.takeWhile_cons,
        List.takeWhile_cons, ih]

private theorem lastWord?_crlf (cs : List Char) : lastWord? (crlf cs) = lastWord? cs := by
  have hreverse : ∀ cs : List Char, cs.reverse.dropWhile isBlank = (trimEnd isBlank cs).reverse := by
    intro cs
    rw [trimEnd, List.reverse_reverse]
  have hword : ((crlf cs).reverse.dropWhile isBlank).takeWhile (fun c => !isBlank c) =
      (cs.reverse.dropWhile isBlank).takeWhile fun c => !isBlank c := by
    rw [hreverse, hreverse, trimEnd_crlf (by decide)]
    exact takeWhile_reverse_crlf (by decide) _
  rw [lastWord?, hword]
  rfl

def SingleLine (word : List Char) : Prop :=
  ∀ c ∈ word, isLineBreak c = false

instance (word : List Char) : Decidable (SingleLine word) :=
  List.decidableBAll (fun c => isLineBreak c = false) word

theorem SingleLine.lineFeed_not_mem {word : List Char} (h : SingleLine word) : '\n' ∉ word :=
  fun hm => absurd (h '\n' hm) (by decide)

private theorem SingleLine.tail {c : Char} {word : List Char} (h : SingleLine (c :: word)) :
    SingleLine word :=
  fun d hd => h d (List.mem_cons_of_mem c hd)

/-- A word on one line is not split by the other line ending. -/
private theorem exists_of_crlf_eq_append {word : List Char} (hw : SingleLine word)
    {cs rest : List Char}
    (h : crlf cs = word ++ rest) : ∃ rest', cs = word ++ rest' ∧ rest = crlf rest' := by
  induction word generalizing cs with
  | nil => exact ⟨cs, rfl, h.symm⟩
  | cons c word ih =>
    cases cs with
    | nil => contradiction
    | cons d cs =>
      by_cases hd : d = '\n'
      · subst hd
        obtain ⟨rfl, -⟩ := List.cons.inj h
        exact absurd (hw '\r' List.mem_cons_self) (by decide)
      · rw [crlf_cons hd] at h
        obtain ⟨rfl, htail⟩ := List.cons.inj h
        obtain ⟨rest', rfl, hrest⟩ := ih hw.tail htail
        exact ⟨rest', rfl, hrest⟩

theorem crlf_append_of_singleLine {word : List Char} (hw : SingleLine word) (cs : List Char) :
    crlf (word ++ cs) = word ++ crlf cs := by
  rw [crlf_append, crlf_eq_self hw.lineFeed_not_mem]

theorem after?_crlf {word : List Char} (hw : SingleLine word) (cs : List Char) :
    after? word (crlf cs) = (after? word cs).map crlf := by
  apply Option.ext
  intro rest
  rw [after?_eq_some_iff, Option.map_eq_some_iff]
  constructor
  · intro h
    obtain ⟨rest', rfl, hrest⟩ := exists_of_crlf_eq_append hw h
    exact ⟨rest', after?_append word rest', hrest.symm⟩
  · rintro ⟨rest', h, rfl⟩
    rw [after?_eq_some_iff.mp h, crlf_append_of_singleLine hw]

theorem infix_of_infix_crlf {word : List Char} (hw : SingleLine word) {cs : List Char}
    (h : word <:+: crlf cs) : word <:+: cs := by
  induction cs with
  | nil => exact h
  | cons c cs ih =>
    by_cases hc : c = '\n'
    · subst hc
      rw [crlf_lineFeed, List.infix_cons_iff, List.infix_cons_iff] at h
      have hnil : ∀ c cs, isLineBreak c = true → word <+: c :: cs → word = [] := by
        intro c cs hc hp
        cases word with
        | nil => rfl
        | cons d word =>
          obtain ⟨rfl, -⟩ := List.cons_prefix_cons.mp hp
          rw [hw d List.mem_cons_self] at hc
          contradiction
      rcases h with hp | hp | hi
      · rw [hnil '\r' _ (by decide) hp]
        exact List.nil_infix
      · rw [hnil '\n' _ (by decide) hp]
        exact List.nil_infix
      · exact List.infix_cons_iff.mpr (Or.inr (ih hi))
    · obtain hp | hi := List.infix_cons_iff.mp (crlf_cons hc cs ▸ h)
      · obtain ⟨rest, hrest⟩ := hp
        rw [← crlf_cons hc] at hrest
        obtain ⟨rest', hcs, -⟩ := exists_of_crlf_eq_append hw hrest.symm
        rw [hcs]
        exact (List.prefix_append word rest').isInfix
      · exact List.infix_cons_iff.mpr (Or.inr (ih hi))

def Occurrence.crlf (o : Occurrence) : Occurrence :=
  ⟨Text.crlf o.before, Text.crlf o.piece, Text.crlf o.after⟩

namespace Pattern

/-- The pattern recognises the same pieces with either line ending, and none between a carriage return
and its line feed. -/
structure KeepsLines (p : Pattern) : Prop where
  match?_crlf : ∀ left cs,
    p.match? left (crlf cs) = (p.match? left cs).map (Prod.map crlf crlf)
  between : ∀ cs, p.match? (some '\r') ('\n' :: cs) = none

variable {p : Pattern}

namespace KeepsLines

theorem find?_crlf (h : p.KeepsLines) (left : Option Char) (cs : List Char) :
    p.find? left (crlf cs) = (p.find? left cs).map Occurrence.crlf := by
  induction cs generalizing left with
  | nil => rw [crlf_nil, find?_nil, Option.map_none]
  | cons c cs ih =>
    have hcrlf := h.match?_crlf left (c :: cs)
    rw [find?.eq_def p left (c :: cs)]
    cases hm : p.match? left (c :: cs) with
    | some found =>
      rw [hm, Option.map_some] at hcrlf
      rw [find?_of_match hcrlf]
      rfl
    | none =>
      rw [hm, Option.map_none] at hcrlf
      by_cases hc : c = '\n'
      · subst hc
        rw [crlf_lineFeed] at hcrlf ⊢
        rw [find?.eq_def, hcrlf]
        simp only
        rw [find?.eq_def, h.between]
        simp only [ih, Option.map_map]
        rfl
      · rw [crlf_cons hc] at hcrlf ⊢
        rw [find?.eq_def, hcrlf]
        simp only [ih, Option.map_map]
        congr 1
        funext o
        simp [Occurrence.crlf, crlf_cons hc]

private theorem replace_crlf (h : p.KeepsLines) {new : List Char} (hnew : '\n' ∉ new)
    (left : Option Char)
    (cs : List Char) : p.replace new left (crlf cs) = crlf (p.replace new left cs) := by
  fun_induction p.replace new left cs with
  | case1 left cs hf =>
    have hcrlf := h.find?_crlf left cs
    rw [hf, Option.map_none] at hcrlf
    rw [replace_of_none hcrlf]
  | case2 left cs o hf _ ih =>
    have hcrlf := h.find?_crlf left cs
    rw [hf, Option.map_some] at hcrlf
    rw [replace_of_some hcrlf, crlf_append, crlf_append, crlf_eq_self hnew, ← ih]
    simp [Occurrence.crlf]

end KeepsLines

end Pattern

end Reflector.Text

namespace Reflector

open Text

private theorem isWordBoundary_head?_crlf (left : Option Char) (cs : List Char) :
    isWordBoundary left (crlf cs).head? = isWordBoundary left cs.head? := by
  have hreturn : isWord '\r' = false := by decide +kernel
  have hfeed : isWord '\n' = false := by decide +kernel
  rw [head?_crlf]
  cases cs with
  | nil => rfl
  | cons c cs =>
    by_cases hc : c = '\n'
    · simp [isWordBoundary, hc, hreturn, hfeed]
    · simp [hc]

private theorem headerOf?_crlf {keyword : List Char} (hk : SingleLine keyword)
    (left : Option Char) (cs : List Char) :
    headerOf? left (crlf cs) keyword =
      (headerOf? left cs keyword).map (Prod.map crlf crlf) := by
  have hbrace : SingleLine ['{'] := by decide
  unfold headerOf?
  rw [after?_crlf hk]
  cases after? keyword cs with
  | none => rfl
  | some tail =>
    simp only [Option.map_some, bind, Option.bind_some]
    rw [dropWhile_crlf (by decide), after?_crlf hbrace]
    cases after? ['{'] (tail.dropWhile isHeaderChar) with
    | none => rfl
    | some rest =>
      simp only [Option.map_some, Option.bind_some, isWordBoundary_head?_crlf]
      split
      · rw [takeWhile_crlf (by decide)]
        simp [crlf_eq_self hk.lineFeed_not_mem, crlf_cons, pure]
      · rfl

theorem headerPattern_keepsLines {keywords : List (List Char)}
    (hk : ∀ keyword ∈ keywords, SingleLine keyword) : (headerPattern keywords).KeepsLines := by
  have hnames : ∀ name ∈ alternatives keywords, SingleLine name := by
    intro name hm
    rcases mem_alternatives hm with rfl | hm
    · exact List.forall_mem_nil _
    · exact hk name hm
  constructor
  · intro left cs
    change (alternatives keywords).findSome? (headerOf? left (crlf cs)) =
      ((alternatives keywords).findSome? (headerOf? left cs)).map _
    generalize alternatives keywords = names at hnames
    induction names with
    | nil => rfl
    | cons name names ih =>
      obtain ⟨hname, hnames⟩ := List.forall_mem_cons.mp hnames
      rw [List.findSome?_cons, List.findSome?_cons, headerOf?_crlf hname, ih hnames]
      cases headerOf? left cs name <;> rfl
  · intro cs
    have hboundary : isWordBoundary (some '\r') (some '\n') = false := by decide +kernel
    change (alternatives keywords).findSome? (headerOf? (some '\r') ('\n' :: cs)) = none
    rw [List.findSome?_eq_none_iff]
    intro name hm
    unfold headerOf?
    rw [List.head?_cons, hboundary]
    cases after? name ('\n' :: cs) with
    | none => rfl
    | some tail =>
      simp only [bind, Option.bind_some]
      cases after? ['{'] (tail.dropWhile isHeaderChar) <;> rfl

private theorem attribute?_eq (cs : List Char) :
    attribute? cs = (after? ['[', '['] cs).bind fun inside =>
      (after? [']', ']'] (inside.dropWhile fun c => c != ']')).map fun rest =>
        ('[' :: '[' :: inside.takeWhile (fun c => c != ']') ++ [']', ']'], rest) := by
  unfold attribute?
  split
  · rename_i cs
    rw [show '[' :: '[' :: cs = ['[', '['] ++ cs from rfl, after?_append, Option.bind_some]
    simp only
    split
    · rename_i rest hrest
      rw [hrest, show ']' :: ']' :: rest = [']', ']'] ++ rest from rfl, after?_append]
      rfl
    · rename_i hne
      cases ha : after? [']', ']'] (cs.dropWhile fun c => c != ']') with
      | none => rfl
      | some rest => exact absurd (after?_eq_some_iff.mp ha) (hne rest)
  · rename_i hne
    cases ha : after? ['[', '['] cs with
    | none => rfl
    | some rest => exact absurd (after?_eq_some_iff.mp ha) (hne rest)

private theorem attributePattern_keepsLines : attributePattern.KeepsLines := by
  constructor
  · intro left cs
    change attribute? (crlf cs) = (attribute? cs).map _
    rw [attribute?_eq, attribute?_eq, after?_crlf (by decide)]
    cases after? ['[', '['] cs with
    | none => rfl
    | some inside =>
      rw [Option.map_some, Option.bind_some, Option.bind_some, dropWhile_crlf (by decide),
        takeWhile_crlf (by decide), after?_crlf (by decide)]
      cases after? [']', ']'] (inside.dropWhile fun c => c != ']') with
      | none => rfl
      | some rest => simp [crlf_cons]
  · intro cs
    rfl

private theorem beforeColon?_crlf (left : Option Char) (cs : List Char) :
    beforeColon? left (crlf cs) = (beforeColon? left cs).map crlf := by
  induction cs generalizing left with
  | nil => rfl
  | cons c cs ih =>
    by_cases hc : c = '\n'
    · subst hc
      simp [beforeColon?, ih, Option.map_map, Function.comp_def]
    · have hhead : ((crlf cs).head? != some ':') = (cs.head? != some ':') := by
        rw [head?_crlf]
        cases cs with
        | nil => rfl
        | cons d cs =>
          by_cases hd : d = '\n'
          · subst hd
            rfl
          · simp [hd]
      rw [crlf_cons hc, beforeColon?, beforeColon?, hhead, ih]
      split
      · rfl
      · simp [Option.map_map, Function.comp_def, crlf_cons hc]

private theorem headerName?_crlf (keywords : List (List Char)) (header : List Char) :
    headerName? keywords (crlf header) = headerName? keywords header := by
  have hend : ∀ header, nameEnd (crlf header) = crlf (nameEnd header) := by
    intro header
    rw [nameEnd, nameEnd, beforeColon?_crlf, trimEnd_crlf (by decide), trimEnd_crlf (by decide)]
    cases beforeColon? none header <;> rfl
  rw [headerName?, attributePattern_keepsLines.replace_crlf (by decide), hend, lastWord?_crlf]
  rfl

variable {keywords : List (List Char)} {header : List Char}

theorem headerName_crlf_of_ok {name : String} (h : headerName keywords header = .ok name) :
    headerName keywords (crlf header) = .ok name := by
  rw [headerName, headerName?_crlf]
  rw [headerName] at h
  cases hname : headerName? keywords header with
  | some word => simpa [hname] using h
  | none => simp [hname] at h

theorem headerName_crlf_of_error {failure : Failure}
    (h : headerName keywords header = .error failure) :
    ∃ failure', headerName keywords (crlf header) = .error failure' := by
  rw [headerName, headerName?_crlf]
  rw [headerName] at h
  cases hname : headerName? keywords header with
  | some word => simp [hname] at h
  | none => exact ⟨_, rfl⟩

end Reflector
