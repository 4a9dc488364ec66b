import Mathlib.Data.List.Sort
import Reflector.Class.Members
import Reflector.Proofs.Sweep
/-!
# Reflection marks

No name of a mark has a bracket in it. So a mark ends with the first closing brackets behind its opening
ones, and no mark begins within another. Hence a search for marks finds every one that stands in a text,
and a search from some place on finds those that stand there or further right.
-/

namespace Reflector

open Text

/-- The text is a mark: one of the names between double brackets, with blanks around it if any. -/
inductive IsMark (names : List (List Char)) : List Char → Prop
  | intro {lead name trail : List Char} : (∀ c ∈ lead, isBlank c = true) → name ∈ names →
      (∀ c ∈ trail, isBlank c = true) →
      IsMark names (['[', '['] ++ (lead ++ name ++ trail) ++ [']', ']'])

/-- A mark that stands in a text. -/
structure PlacedMark (names : List (List Char)) (text : List Char) where
  before : List Char
  piece : List Char
  after : List Char
  text_eq : text = before ++ (piece ++ after)
  isMark : IsMark names piece

def PlacedMark.span {names : List (List Char)} {text : List Char} (mark : PlacedMark names text) :
    Span where
  start := byteLength mark.before
  stop := byteLength mark.before + byteLength mark.piece

def Text.Span.shift (bytes : Nat) (span : Span) : Span where
  start := bytes + span.start
  stop := bytes + span.stop

/-- A piece that is not empty ends where the other begins or further left. -/
def Text.Span.Precedes (a b : Span) : Prop :=
  a.start < a.stop ∧ a.stop ≤ b.start

instance : Std.Irrefl Span.Precedes where
  irrefl _ h := Nat.not_lt.mpr h.2 h.1

instance : Std.Antisymm Span.Precedes where
  antisymm a b hab hba := by
    obtain ⟨hlong, hle⟩ := hab
    obtain ⟨hlong', hle'⟩ := hba
    omega

/-- No bracket occurs in a name. -/
def FreeOfBrackets (names : List (List Char)) : Prop :=
  ∀ name ∈ names, '[' ∉ name ∧ ']' ∉ name

section

variable {names : List (List Char)} {cs piece rest : List Char}

private theorem exists_of_markEnd? (h : markEnd? names cs = some (piece, rest)) :
    ∃ name ∈ names, ∃ trail, (∀ c ∈ trail, isBlank c = true) ∧
      piece = name ++ trail ++ [']', ']'] := by
  obtain ⟨name, hname, h⟩ := List.exists_of_findSome?_eq_some h
  simp only [bind, Option.bind_eq_some_iff, pure, Option.some.injEq, Prod.mk.injEq] at h
  obtain ⟨tail, -, -, -, hpiece, -⟩ := h
  exact ⟨name, hname, tail.takeWhile isBlank, List.all_eq_true.mp List.all_takeWhile, hpiece.symm⟩

/-- The blanks behind a name are passed over together, as a closing bracket is none. -/
private theorem isSome_markEnd? {name trail : List Char} (hname : name ∈ names)
    (htrail : ∀ c ∈ trail, isBlank c = true) (rest : List Char) :
    (markEnd? names (name ++ (trail ++ ([']', ']'] ++ rest)))).isSome = true := by
  have hclose : (trail ++ ([']', ']'] ++ rest)).dropWhile isBlank = [']', ']'] ++ rest := by
    rw [List.dropWhile_append_of_pos htrail]
    rfl
  rw [markEnd?, List.findSome?_isSome_iff]
  refine ⟨name, hname, ?_⟩
  simp only [after?_append, bind, Option.bind_some, hclose, pure, Option.isSome_some]

private theorem isMark_of_mark? (h : mark? names cs = some (piece, rest)) : IsMark names piece := by
  simp only [mark?, bind, Option.bind_eq_some_iff] at h
  obtain ⟨inside, -, h⟩ := h
  obtain ⟨n, hn, h⟩ := List.exists_of_findSome?_eq_some h
  simp only [Option.bind_eq_some_iff, pure, Option.some.injEq, Prod.mk.injEq, Prod.exists] at h
  obtain ⟨tail, _, htail, rfl, -⟩ := h
  obtain ⟨name, hname, trail, htrail, rfl⟩ := exists_of_markEnd? htail
  have hle : n ≤ (inside.takeWhile isBlank).length := by
    rw [List.mem_reverse, List.mem_range] at hn
    exact Nat.le_of_lt_succ hn
  have htake : inside.take n = (inside.takeWhile isBlank).take n := by
    conv_lhs => rw [← List.takeWhile_append_dropWhile (p := isBlank) (l := inside)]
    exact List.take_append_of_le_length hle
  have hlead : ∀ c ∈ inside.take n, isBlank c = true := by
    intro c hc
    rw [htake] at hc
    exact List.all_eq_true.mp List.all_takeWhile c (List.mem_of_mem_take hc)
  simpa using IsMark.intro hlead hname htrail

private theorem isSome_mark? (h : IsMark names piece) (rest : List Char) :
    (mark? names (piece ++ rest)).isSome = true := by
  obtain @⟨lead, name, trail, hlead, hname, htrail⟩ := h
  have htext : ['[', '['] ++ (lead ++ name ++ trail) ++ [']', ']'] ++ rest =
      ['[', '['] ++ (lead ++ (name ++ (trail ++ ([']', ']'] ++ rest)))) := by simp
  have hblanks : lead.length ≤
      ((lead ++ (name ++ (trail ++ ([']', ']'] ++ rest)))).takeWhile isBlank).length := by
    rw [List.takeWhile_append_of_pos hlead, List.length_append]
    exact Nat.le_add_right _ _
  obtain ⟨tail, htail⟩ := Option.isSome_iff_exists.mp (isSome_markEnd? hname htrail rest)
  rw [htext, mark?, after?_append]
  simp only [bind, Option.bind_some]
  rw [List.findSome?_isSome_iff]
  refine ⟨lead.length, ?_, ?_⟩
  · rw [List.mem_reverse, List.mem_range]
    exact Nat.lt_succ_of_le hblanks
  · rw [List.drop_left, htail]
    rfl

theorem markPattern_occursIn_iff {text : List Char} : (markPattern names).occursIn text = true ↔
    Nonempty (PlacedMark (alternatives names) text) := by
  rw [Pattern.occursIn, Option.isSome_iff_exists]
  constructor
  · rintro ⟨found, hfound⟩
    obtain ⟨htext, hmatch, -⟩ := Pattern.find?_eq_some hfound
    exact ⟨found.before, found.piece, found.after, htext, isMark_of_mark? hmatch⟩
  · rintro ⟨mark⟩
    rw [← Option.isSome_iff_exists, Option.isSome_iff_ne_none]
    intro hnone
    have hmark := isSome_mark? mark.isMark mark.after
    rw [show mark? (alternatives names) (mark.piece ++ mark.after) = none from
      Pattern.find?_eq_none hnone mark.text_eq] at hmark
    contradiction

private theorem IsMark.exists_inside (h : IsMark names piece) (hnames : FreeOfBrackets names) :
    ∃ inside, piece = ['[', '['] ++ inside ++ [']', ']'] ∧ '[' ∉ inside ∧ ']' ∉ inside := by
  obtain @⟨lead, name, trail, hlead, hname, htrail⟩ := h
  have hinside : ∀ c, isBlank c = false → c ∉ name → c ∉ lead ++ name ++ trail := by
    intro c hc hn hm
    have hblank : isBlank c = true := by
      rcases List.mem_append.mp hm with hm | hm
      · exact hlead c ((List.mem_append.mp hm).resolve_right hn)
      · exact htrail c hm
    rw [hc] at hblank
    contradiction
  obtain ⟨hopen, hclose⟩ := hnames name hname
  exact ⟨_, rfl, hinside '[' (by decide) hopen, hinside ']' (by decide) hclose⟩

private theorem IsMark.append_inj {piece' rest' : List Char} (h : IsMark names piece)
    (h' : IsMark names piece') (hnames : FreeOfBrackets names) (htext : piece ++ rest = piece' ++ rest') :
    piece = piece' ∧ rest = rest' := by
  obtain ⟨inside, rfl, -, hclose⟩ := h.exists_inside hnames
  obtain ⟨inside', rfl, -, hclose'⟩ := h'.exists_inside hnames
  -- As an attribute, either mark is what the reader of attributes reads.
  have hread := attribute?_append hclose rest
  rw [htext, attribute?_append hclose' rest', Option.some_inj, Prod.mk.injEq] at hread
  exact ⟨hread.1.symm, hread.2.symm⟩

/-- Only the first two characters of a mark are opening brackets, so no mark begins at a later one of its
characters. -/
private theorem IsMark.not_opens {front back : List Char} (h : IsMark names (front ++ back))
    (hnames : FreeOfBrackets names) (hfront : front ≠ []) (hback : back ≠ []) (rest : List Char) :
    ¬ ['[', '['] <+: back ++ rest := by
  intro hopens
  obtain ⟨inside, hpiece, hopen, -⟩ := h.exists_inside hnames
  obtain ⟨c, front, rfl⟩ := List.exists_cons_of_ne_nil hfront
  obtain ⟨d, back, rfl⟩ := List.exists_cons_of_ne_nil hback
  obtain ⟨rfl, hnext⟩ := List.cons_prefix_cons.mp hopens
  have htail : '[' ∉ inside ++ [']', ']'] := by simp [hopen]
  simp only [List.cons_append, List.nil_append, List.cons.injEq] at hpiece
  cases front with
  | nil =>
    -- The second bracket of the one mark would be the first of the other.
    obtain rfl : back = inside ++ [']', ']'] := by simpa using hpiece.2
    cases inside with
    | nil => simp at hnext
    | cons e inside =>
      obtain ⟨rfl, -⟩ := List.cons_prefix_cons.mp hnext
      exact hopen List.mem_cons_self
  | cons e front =>
    have hmem : '[' ∈ front ++ '[' :: back := by simp
    simp only [List.cons_append, List.cons.injEq] at hpiece
    rw [hpiece.2.2] at hmem
    exact htail hmem

private theorem markPattern_match?_eq_some_iff (hne : names ≠ []) (hnames : FreeOfBrackets names)
    {left : Option Char} :
    (markPattern names).match? left cs = some (piece, rest) ↔
      cs = piece ++ rest ∧ IsMark names piece := by
  have hmatch : (markPattern names).match? left cs = mark? names cs := by
    change mark? (alternatives names) cs = mark? names cs
    rw [alternatives, if_neg hne]
  constructor
  · intro h
    exact ⟨((markPattern names).sound h).2, isMark_of_mark? (hmatch.symm.trans h)⟩
  · rintro ⟨rfl, hmark⟩
    obtain ⟨⟨piece', rest'⟩, hread⟩ := Option.isSome_iff_exists.mp (isSome_mark? hmark rest)
    rw [← hmatch] at hread
    have htext := ((markPattern names).sound hread).2
    obtain ⟨rfl, rfl⟩ := hmark.append_inj (isMark_of_mark? (hmatch.symm.trans hread)) hnames htext
    exact hread

end

namespace PlacedMark

variable {names : List (List Char)} {text : List Char}

private theorem span_eq_of_start_eq (hnames : FreeOfBrackets names) {a b : PlacedMark names text}
    (h : a.span.start = b.span.start) : a.span = b.span := by
  obtain ⟨-, hrest⟩ := append_inj_of_byteLength (a.text_eq.symm.trans b.text_eq) h
  obtain ⟨hpiece, -⟩ := a.isMark.append_inj b.isMark hnames hrest
  have hbefore : byteLength a.before = byteLength b.before := h
  rw [span, span, hpiece, hbefore]

theorem precedes (hnames : FreeOfBrackets names) {a b : PlacedMark names text}
    (h : a.span.start < b.span.start) : a.span.Precedes b.span := by
  obtain ⟨between, hbefore, hrest⟩ :=
    exists_append_of_byteLength_le (a.text_eq.symm.trans b.text_eq) (Nat.le_of_lt h)
  have hbetween : between ≠ [] := by
    intro hnil
    simp [span, hbefore, hnil] at h
  have hlong : 0 < byteLength a.piece := by
    obtain ⟨inside, hpiece, -⟩ := a.isMark.exists_inside hnames
    apply Nat.pos_of_ne_zero
    intro hzero
    have hnil := byteLength_eq_zero hzero
    simp [hpiece] at hnil
  refine ⟨Nat.lt_add_of_pos_right hlong, ?_⟩
  by_contra hlt
  have hshort : byteLength between < byteLength a.piece := by
    simp only [span, hbefore, byteLength_append] at hlt
    omega
  obtain ⟨within, hcut, hbehind⟩ := exists_append_of_byteLength_le hrest.symm (Nat.le_of_lt hshort)
  have hwithin : within ≠ [] := by
    intro hnil
    simp [hcut, hnil] at hshort
  obtain ⟨inside, hpiece, -⟩ := b.isMark.exists_inside hnames
  have hopens : ['[', '['] <+: within ++ a.after := by
    rw [← hbehind, hpiece]
    simp
  have hmark := a.isMark
  rw [hcut] at hmark
  exact hmark.not_opens hnames hbetween hwithin a.after hopens

def behind (mark : PlacedMark names text) (front : List Char) : PlacedMark names (front ++ text) where
  before := front ++ mark.before
  piece := mark.piece
  after := mark.after
  text_eq := by rw [List.append_assoc, ← mark.text_eq]
  isMark := mark.isMark

private theorem span_behind (mark : PlacedMark names text) (front : List Char) :
    (mark.behind front).span = mark.span.shift (byteLength front) := by
  simp only [span, behind, Text.Span.shift, byteLength_append, Nat.add_assoc]

private theorem exists_behind {front : List Char} (mark : PlacedMark names (front ++ text))
    (h : byteLength front ≤ mark.span.start) :
    ∃ inner : PlacedMark names text, inner.span.shift (byteLength front) = mark.span := by
  obtain ⟨before, hbefore, htext⟩ := exists_append_of_byteLength_le mark.text_eq h
  refine ⟨⟨before, mark.piece, mark.after, htext, mark.isMark⟩, ?_⟩
  simp only [span, Text.Span.shift, hbefore, byteLength_append, Nat.add_assoc]

end PlacedMark

section

variable {names : List (List Char)} {text : List Char} {offset : Nat} {left : Option Char}

private theorem exists_mark_of_mem_spansFrom (hne : names ≠ []) (hnames : FreeOfBrackets names)
    {span : Span}
    (h : span ∈ (markPattern names).spansFrom offset left text) :
    ∃ mark : PlacedMark names text, mark.span.shift offset = span := by
  obtain ⟨before, piece, after, htext, hstart, hstop, hmatch⟩ :=
    (Pattern.isSweep_spansFrom (markPattern names) offset left text).recognised span h
  obtain ⟨-, hmark⟩ := (markPattern_match?_eq_some_iff hne hnames).mp hmatch
  refine ⟨⟨before, piece, after, htext, hmark⟩, ?_⟩
  obtain ⟨start, stop⟩ := span
  simp only [PlacedMark.span, Text.Span.shift, Span.mk.injEq] at hstart hstop ⊢
  omega

private theorem mem_spansFrom_iff (hne : names ≠ []) (hnames : FreeOfBrackets names) {span : Span} :
    span ∈ (markPattern names).spansFrom offset left text ↔
      ∃ mark : PlacedMark names text, mark.span.shift offset = span := by
  constructor
  · exact exists_mark_of_mem_spansFrom hne hnames
  · rintro ⟨mark, rfl⟩
    have hplace : offset + mark.span.start ∈ (markPattern names).offsetsFrom offset left text := by
      apply Pattern.mem_offsetsFrom_iff.mpr
      refine ⟨mark.before, mark.piece ++ mark.after, mark.text_eq, rfl, ?_⟩
      rw [(markPattern_match?_eq_some_iff hne hnames).mpr ⟨rfl, mark.isMark⟩]
      rfl
    obtain ⟨found, hfound, hlow, hhigh⟩ :=
      (Pattern.isSweep_spansFrom (markPattern names) offset left text).covers _ hplace
    obtain ⟨other, rfl⟩ := exists_mark_of_mem_spansFrom hne hnames hfound
    simp only [Text.Span.shift] at hlow hhigh
    have hstart : other.span.start = mark.span.start := by
      by_contra hother
      have hprecedes := PlacedMark.precedes hnames (a := other) (b := mark) (by omega)
      exact Nat.not_lt.mpr hprecedes.2 (by omega)
    rwa [← PlacedMark.span_eq_of_start_eq hnames hstart]

private theorem mem_spans_iff_mark (hne : names ≠ []) (hnames : FreeOfBrackets names) {span : Span} :
    span ∈ (markPattern names).spans text ↔ ∃ mark : PlacedMark names text, mark.span = span := by
  have hshift : ∀ mark : PlacedMark names text, mark.span.shift 0 = mark.span := by
    intro mark
    simp only [Text.Span.shift, Nat.zero_add]
  rw [Pattern.spans, mem_spansFrom_iff hne hnames]
  simp only [hshift]

private theorem pairwise_spansFrom (p : Pattern) :
    (p.spansFrom offset left text).Pairwise Span.Precedes :=
  (p.isSweep_spansFrom offset left text).disjoint

private theorem pairwise_spans (p : Pattern) : (p.spans text).Pairwise Span.Precedes :=
  pairwise_spansFrom p

/-- The marks of the end of a text are those of the text that do not begin further left. -/
private theorem spansFrom_eq_filter (hne : names ≠ []) (hnames : FreeOfBrackets names)
    (front rest : List Char) :
    (markPattern names).spansFrom (byteLength front) left rest =
      ((markPattern names).spans (front ++ rest)).filter (byteLength front ≤ ·.start) := by
  apply List.Pairwise.eq_of_mem_iff (pairwise_spansFrom _) ((pairwise_spans _).filter _)
  intro span
  rw [List.mem_filter, mem_spansFrom_iff hne hnames, mem_spans_iff_mark hne hnames, decide_eq_true_eq]
  constructor
  · rintro ⟨mark, rfl⟩
    exact ⟨⟨mark.behind front, mark.span_behind front⟩, Nat.le_add_right _ _⟩
  · rintro ⟨⟨mark, rfl⟩, hplace⟩
    exact mark.exists_behind hplace

theorem ClassBlock.markOffsets_eq_map (hne : names ≠ []) (hnames : FreeOfBrackets names)
    (decl : ClassBlock) (h : decl.header <+: decl.body) :
    decl.markOffsets names =
      (((markPattern names).spans decl.body).filter (byteLength decl.header ≤ ·.start)).map (·.start) := by
  obtain ⟨members, hbody⟩ := h
  rw [markOffsets, ← hbody, splitFromByte_byteLength, spansFrom_eq_filter hne hnames]

end

/-- Whatever the names are made of, the spans of the pattern are the marks that stand in the text, in
order and without overlap. The members of a class are looked for at those that do not begin in its header,
at every one of them and whatever a reader answers. -/
theorem markSpans_placed {names : List (List Char)} (hne : names ≠ [])
    (hnames : ∀ name ∈ names, '[' ∉ name ∧ ']' ∉ name) :
    (∀ text,
      (∀ span, span ∈ (markPattern names).spans text ↔
        ∃ mark : PlacedMark names text, mark.span = span) ∧
      ((markPattern names).spans text).Pairwise Span.Precedes ∧
      ∀ a b : PlacedMark names text, a.span ≠ b.span →
        a.span.Precedes b.span ∨ b.span.Precedes a.span) ∧
    ∀ decl : ClassBlock, decl.header <+: decl.body →
      decl.markOffsets names =
        (((markPattern names).spans decl.body).filter (byteLength decl.header ≤ ·.start)).map (·.start) ∧
      ∀ reader kind, decl.marked names reader kind =
        (((markPattern names).spans decl.body).filter (byteLength decl.header ≤ ·.start)).filterMap
          fun span => markedName? reader decl.body kind span.start := by
  refine ⟨fun text => ⟨fun span => mem_spans_iff_mark hne hnames, pairwise_spans _, ?overlap⟩, ?visited⟩
  case overlap =>
    intro a b hab
    rcases Nat.lt_trichotomy a.span.start b.span.start with hlt | heq | hgt
    · exact Or.inl (PlacedMark.precedes hnames hlt)
    · exact absurd (PlacedMark.span_eq_of_start_eq hnames heq) hab
    · exact Or.inr (PlacedMark.precedes hnames hgt)
  case visited =>
    intro decl hheader
    have hoffsets := decl.markOffsets_eq_map hne hnames hheader
    refine ⟨hoffsets, ?_⟩
    intro reader kind
    rw [ClassBlock.marked, hoffsets, List.filterMap_map]
    rfl

/-- A name with a character that has a meaning in patterns, and one that it begins. -/
def starredNames : List (List Char) :=
  ["r*".toList, "r* x".toList]

/-- Marks stand in the header, before a field and before a method. -/
def starredClass : ClassBlock where
  name := "A"
  header := "class [[r*]] A \x7b".toList
  body := "class [[r*]] A \x7b [[rr]] int a; [[\u00a0r* x ]] int b; [[ r*\n]] void c(); \x7d".toList
  offset := 0

theorem markSpans_placed_starredClass :
    (starredNames ≠ [] ∧ FreeOfBrackets starredNames ∧ starredClass.header <+: starredClass.body) ∧
      (∃ mark : PlacedMark starredNames starredClass.body, mark.span = ⟨31, 42⟩) ∧
      starredClass.markOffsets starredNames = [31, 50] ∧
      starredClass.marked starredNames tokenReader .field = [⟨31, ['b']⟩] ∧
      starredClass.marked starredNames tokenReader .method = [⟨50, ['c']⟩] := by
  have hne : starredNames ≠ [] := List.cons_ne_nil _ _
  have hnames : FreeOfBrackets starredNames := by
    unfold FreeOfBrackets
    decide
  have hheader : starredClass.header <+: starredClass.body := by decide +kernel
  obtain ⟨hspans, hvisited⟩ := markSpans_placed hne hnames
  obtain ⟨hoffsets, hmarked⟩ := hvisited starredClass hheader
  refine ⟨⟨hne, hnames, hheader⟩, ((hspans starredClass.body).1 ⟨31, 42⟩).mp (by decide +kernel), ?_, ?_, ?_⟩
  · rw [hoffsets]
    decide +kernel
  · rw [hmarked]
    decide +kernel
  · rw [hmarked]
    decide +kernel

end Reflector
