import Reflector.Block.Literals
import Reflector.Proofs.Concatenation
import Reflector.Proofs.Identifier
/-!
# The literals that blocks skip

A scan for literals that starts in the middle of a text goes on like the scan of the whole text,
unless it starts inside a literal. The search for the end of a block therefore skips the literals of
the text wherever its class begins outside them. A class does begin inside a literal when the literal
contains a header, as the search for headers knows nothing of literals.
-/

namespace Reflector

open Source Text

private theorem start_lt_stop_of_mem {offset : Nat} {lead : Lead} {cs : List Char}
    {literal : PlacedLiteral} (h : literal ∈ literalsFrom offset lead cs) :
    literal.start < literal.stop := by
  fun_induction literalsFrom offset lead cs with
  | case1 => simp at h
  | case2 offset lead c cs ho _ text ih =>
    rcases List.mem_cons.mp h with rfl | h
    · have hpos : 0 < byteLength text := by
        rw [byteLength_cons]
        exact Nat.add_pos_left c.utf8Size_pos _
      exact Nat.lt_add_of_pos_right hpos
    · exact ih h
  | case3 offset lead c cs ho ih => exact ih h

theorem le_start_of_mem {offset : Nat} {lead : Lead} {cs : List Char} {literal : PlacedLiteral}
    (h : literal ∈ literalsFrom offset lead cs) : offset ≤ literal.start := by
  fun_induction literalsFrom offset lead cs with
  | case1 => simp at h
  | case2 offset lead c cs ho _ text ih =>
    rcases List.mem_cons.mp h with rfl | h
    · exact Nat.le_refl offset
    · exact Nat.le_trans (Nat.le_add_right offset _) (ih h)
  | case3 offset lead c cs ho ih => exact Nat.le_trans (Nat.le_add_right offset _) (ih h)

/-- A scan that starts inside no literal of the text goes on like the scan of the whole text. -/
private theorem literalsFrom_append {offset : Nat} {lead : Lead} {front cs : List Char}
    (h : ∀ literal ∈ literalsFrom offset lead (front ++ cs),
      ¬ literal.Covers (offset + byteLength front)) :
    ∃ early, literalsFrom offset lead (front ++ cs) =
        early ++ literalsFrom (offset + byteLength front) (lead.after front) cs ∧
      ∀ literal ∈ early, literal.stop ≤ offset + byteLength front := by
  generalize htext : front ++ cs = text at h ⊢
  fun_induction literalsFrom offset lead text generalizing front with
  | case1 offset lead =>
    obtain ⟨rfl, rfl⟩ := List.append_eq_nil_iff.mp htext
    exact ⟨[], by simp [literalsFrom], by simp⟩
  | case2 offset lead c rest ho _ text =>
    rename_i ih
    cases front with
    | nil =>
      obtain rfl : cs = c :: rest := htext
      exact ⟨[], (literalsFrom_of_opens ho offset rest).symm, by simp⟩
    | cons d front =>
      have hbyte : text ++ (splitLiteral c rest).2 = d :: front ++ cs := by
        rw [htext]
        exact congrArg (List.cons c) (splitLiteral_append c rest)
      -- The literal at the beginning ends in `front`, as it does not cover the end of `front`.
      have hle : byteLength text ≤ byteLength (d :: front) := by
        have hout := h ⟨offset, text⟩ List.mem_cons_self
        have hpos : 0 < byteLength (d :: front) := by
          rw [byteLength_cons]
          exact Nat.add_pos_left d.utf8Size_pos _
        simp only [PlacedLiteral.Covers, PlacedLiteral.stop, not_and] at hout
        have := hout (Nat.lt_add_of_pos_right hpos)
        omega
      obtain ⟨more, hfront, hrest⟩ := exists_append_of_byteLength_le hbyte hle
      have hoffset : offset + byteLength text + byteLength more =
          offset + byteLength (d :: front) := by
        rw [hfront, byteLength_append, Nat.add_assoc]
      obtain ⟨early, hearly, hstops⟩ := ih hrest.symm (by
        intro literal hm
        rw [hoffset]
        exact h literal (List.mem_cons_of_mem _ hm))
      rw [hoffset] at hearly hstops
      refine ⟨⟨offset, text⟩ :: early, ?_, ?_⟩
      · rw [hearly, hfront, Lead.after_append]
        rfl
      · rw [List.forall_mem_cons]
        exact ⟨Nat.add_le_add_left hle offset, hstops⟩
  | case3 offset lead c rest ho ih =>
    cases front with
    | nil =>
      obtain rfl : cs = c :: rest := htext
      exact ⟨[], (literalsFrom_of_not_opens ho offset rest).symm, by simp⟩
    | cons d front =>
      obtain ⟨rfl, htail⟩ := List.cons.inj htext
      have hoffset : offset + d.utf8Size + byteLength front = offset + byteLength (d :: front) := by
        rw [byteLength_cons, Nat.add_assoc]
      obtain ⟨early, hearly, hstops⟩ := ih htail (by rwa [hoffset])
      rw [hoffset] at hearly hstops
      exact ⟨early, hearly, hstops⟩

/-- The search for the end of a block skips the literals that a scan of the same text finds first. -/
private theorem literalsFrom_of_traceBlock {nesting : Nesting} {offset : Nat} {lead : Lead}
    {cs text rest : List Char} {skipped : List PlacedLiteral}
    (h : traceBlock nesting offset lead cs = (skipped, some (text, rest))) :
    literalsFrom offset lead cs =
        skipped ++ literalsFrom (offset + byteLength text) (lead.after text) rest ∧
      ∀ literal ∈ skipped, offset ≤ literal.start ∧ literal.stop ≤ offset + byteLength text := by
  fun_induction traceBlock nesting offset lead cs generalizing skipped text rest with
  | case1 => simp at h
  | case2 nesting offset lead c cs ho _ literal later block htrace =>
    rename_i ih
    obtain ⟨rfl, hblock⟩ := Prod.mk.inj h
    obtain ⟨⟨inner, rest'⟩, rfl, hpair⟩ := Option.map_eq_some_iff.mp hblock
    obtain ⟨rfl, rfl⟩ := Prod.mk.inj hpair
    obtain ⟨hlater, hbounds⟩ := ih htrace
    have hoffset : offset + byteLength literal + byteLength inner =
        offset + byteLength (literal ++ inner) := by
      rw [byteLength_append, Nat.add_assoc]
    rw [hoffset] at hlater hbounds
    refine ⟨?_, ?_⟩
    · rw [literalsFrom_of_opens ho, Lead.after_append]
      exact congrArg (List.cons _) hlater
    · rw [List.forall_mem_cons]
      refine ⟨⟨Nat.le_refl offset, ?_⟩, fun l hl => ?_⟩
      · rw [← hoffset]
        exact Nat.le_add_right _ _
      · exact ⟨Nat.le_trans (Nat.le_add_right _ _) (hbounds l hl).1, (hbounds l hl).2⟩
  | case3 nesting offset lead c cs ho hclosed =>
    obtain ⟨rfl, hblock⟩ := Prod.mk.inj h
    obtain ⟨rfl, rfl⟩ := Prod.mk.inj (Option.some.inj hblock)
    exact ⟨literalsFrom_of_not_opens ho offset cs, by simp⟩
  | case4 nesting offset lead c cs ho hclosed later block htrace ih =>
    obtain ⟨rfl, hblock⟩ := Prod.mk.inj h
    obtain ⟨⟨inner, rest'⟩, rfl, hpair⟩ := Option.map_eq_some_iff.mp hblock
    obtain ⟨rfl, rfl⟩ := Prod.mk.inj hpair
    obtain ⟨hlater, hbounds⟩ := ih htrace
    have hoffset : offset + c.utf8Size + byteLength inner = offset + byteLength (c :: inner) := by
      rw [byteLength_cons, Nat.add_assoc]
    rw [hoffset] at hlater hbounds
    refine ⟨?_, fun l hl => ?_⟩
    · exact (literalsFrom_of_not_opens ho offset cs).trans hlater
    · exact ⟨Nat.le_trans (Nat.le_add_right _ _) (hbounds l hl).1, (hbounds l hl).2⟩

private theorem exists_of_mem_literalsFrom {offset : Nat} {lead : Lead} {cs : List Char}
    {literal : PlacedLiteral} (h : literal ∈ literalsFrom offset lead cs) :
    ∃ before after quote body, cs = before ++ (literal.text ++ after) ∧
      offset + byteLength before = literal.start ∧ literal.text = quote :: body ∧
      (quote = '"' ∨ quote = '\'') ∧ LiteralTail quote body after := by
  fun_induction literalsFrom offset lead cs with
  | case1 => simp at h
  | case2 offset lead c cs ho _ text ih =>
    have hsplit : c :: cs = text ++ (splitLiteral c cs).2 :=
      (congrArg (List.cons c) (splitLiteral_append c cs)).symm
    rcases List.mem_cons.mp h with rfl | h
    · have hquote : c = '"' ∨ c = '\'' := by
        simp only [Lead.opens, Bool.or_eq_true, Bool.and_eq_true, beq_iff_eq] at ho
        exact ho.imp_right And.left
      exact ⟨[], _, c, _, hsplit, rfl, rfl, hquote, splitLiteral_tail c cs⟩
    · obtain ⟨before, after, quote, body, hcs, hstart, hrest⟩ := ih h
      refine ⟨text ++ before, after, quote, body, ?_, ?_, hrest⟩
      · rw [hsplit, hcs, List.append_assoc]
      · rw [byteLength_append, ← Nat.add_assoc, hstart]
  | case3 offset lead c cs ho ih =>
    obtain ⟨before, after, quote, body, hcs, hstart, hrest⟩ := ih h
    refine ⟨c :: before, after, quote, body, ?_, ?_, hrest⟩
    · rw [hcs, List.cons_append]
    · rw [byteLength_cons, ← Nat.add_assoc, hstart]

theorem Source.LiteralTail.ends {quote : Char} {body after : List Char}
    (h : LiteralTail quote body after) :
    (∀ c ∈ after.head?, c = '\n') ∨ body.getLast? = some quote := by
  induction h with
  | ended ha => exact Or.inl ha
  | broken => exact Or.inl (by simp)
  | closed => exact Or.inr rfl
  | escape c _ ih => exact ih.imp_right fun hlast => by simp [List.getLast?_cons, hlast]
  | other c _ _ _ _ ih => exact ih.imp_right fun hlast => by simp [List.getLast?_cons, hlast]

namespace ClassBlock

/-- The class begins inside a literal of the text, behind its opening quote. -/
def BeginsInLiteral (buffer : List Char) (decl : ClassBlock) : Prop :=
  ∃ literal ∈ literals buffer, literal.Covers decl.offset

instance (buffer : List Char) (decl : ClassBlock) : Decidable (decl.BeginsInLiteral buffer) :=
  inferInstanceAs (Decidable (∃ literal ∈ literals buffer, literal.Covers decl.offset))

/-- The search for the end of the class skips the literals of the text that stand in the class. -/
structure AgreesOnLiterals (buffer : List Char) (decl : ClassBlock) : Prop where
  skipped : skippedLiterals buffer decl.offset =
    (literals buffer).filter (PlacedLiteral.isWithin decl.offset decl.stop)
  /-- No literal reaches over the beginning or the end of the class. -/
  apart : ∀ literal ∈ literals buffer, literal.stop ≤ decl.offset ∨
    literal.isWithin decl.offset decl.stop = true ∨ decl.stop ≤ literal.start

theorem agreesOnLiterals {buffer front rest : List Char} {decl : ClassBlock}
    (hb : buffer = front ++ (decl.body ++ rest)) (hoffset : byteLength front = decl.offset)
    (hsplit : splitBlock (Lead.none.after front) (decl.body ++ rest) = some (decl.body, rest))
    (hout : ¬ decl.BeginsInLiteral buffer) : decl.AgreesOnLiterals buffer := by
  have hcover : ∀ literal ∈ literalsFrom 0 .none (front ++ (decl.body ++ rest)),
      ¬ literal.Covers (0 + byteLength front) := by
    intro literal hm hc
    rw [← hb] at hm
    rw [Nat.zero_add, hoffset] at hc
    exact hout ⟨literal, hm, hc⟩
  obtain ⟨early, hearly, hstops⟩ := literalsFrom_append hcover
  rw [Nat.zero_add, hoffset] at hearly hstops
  generalize htrace : traceBlock {} decl.offset (Lead.none.after front) (decl.body ++ rest) = trace
  have hblock := traceBlock_snd {} decl.offset (Lead.none.after front) (decl.body ++ rest)
  rw [htrace] at hblock
  obtain ⟨skipped, block⟩ := trace
  obtain rfl : block = some (decl.body, rest) := hblock.trans hsplit
  obtain ⟨hskipped, hbounds⟩ := literalsFrom_of_traceBlock htrace
  have hskip : skippedLiterals buffer decl.offset = skipped := by
    rw [skippedLiterals, hb, ← hoffset, splitFromByte_byteLength]
    simp only [hoffset, htrace]
  have hall : literals buffer = early ++ (skipped ++
      literalsFrom decl.stop ((Lead.none.after front).after decl.body) rest) := by
    rw [literals, hb, hearly, hskipped]
    rfl
  have hbefore : ∀ literal ∈ early, literal.start < decl.offset := by
    intro literal hm
    have hmem : literal ∈ literals buffer := by
      rw [hall]
      exact List.mem_append_left _ hm
    exact Nat.lt_of_lt_of_le (start_lt_stop_of_mem hmem) (hstops literal hm)
  refine ⟨?_, ?_⟩
  · have hfront : early.filter (PlacedLiteral.isWithin decl.offset decl.stop) = [] := by
      rw [List.filter_eq_nil_iff]
      intro literal hm
      have := hbefore literal hm
      rw [PlacedLiteral.isWithin_iff]
      omega
    have hback : (literalsFrom decl.stop ((Lead.none.after front).after decl.body) rest).filter
        (PlacedLiteral.isWithin decl.offset decl.stop) = [] := by
      rw [List.filter_eq_nil_iff]
      intro literal hm
      have hle := le_start_of_mem hm
      have hlt := start_lt_stop_of_mem hm
      rw [PlacedLiteral.isWithin_iff]
      omega
    have hinside : skipped.filter (PlacedLiteral.isWithin decl.offset decl.stop) = skipped := by
      rw [List.filter_eq_self]
      intro literal hm
      exact PlacedLiteral.isWithin_iff.mpr (hbounds literal hm)
    rw [hskip, hall, List.filter_append, List.filter_append, hfront, hback, hinside,
      List.nil_append, List.append_nil]
  · intro literal hm
    rw [hall] at hm
    rcases List.mem_append.mp hm with hm | hm
    · exact Or.inl (hstops literal hm)
    · rcases List.mem_append.mp hm with hm | hm
      · exact Or.inr (Or.inl (PlacedLiteral.isWithin_iff.mpr (hbounds literal hm)))
      · exact Or.inr (Or.inr (le_start_of_mem hm))

end ClassBlock

variable {keywords : List (List Char)} {buffer : List Char}

/-- A class that a scan finds: its header and its block are read at its offset. -/
theorem Scans.exists_read {before cs : List Char} {scan : Scan} (hs : IsSeam before)
    (h : Scans keywords before cs scan) (hb : buffer = before ++ cs) :
    ∀ decl ∈ scan.classes, ∃ front rest later left, byteLength front = decl.offset ∧
      buffer = front ++ (decl.body ++ rest) ∧
      splitBlock (Lead.none.after front) (decl.body ++ rest) = some (decl.body, rest) ∧
      buffer = front ++ (decl.header ++ later) ∧
      (headerPattern keywords).match? left (decl.header ++ later) = some (decl.header, later) := by
  induction h with
  | complete hf => simp
  | unbalanced hf hsplit => simp
  | failed hf hsplit hn => simp
  | @found before cs o body rest name later hf hsplit hn _ ih =>
    obtain ⟨hcs, hmatch, -⟩ := Pattern.find?_eq_some hf
    have hbody := (splitBlock_sound hsplit).2
    intro decl hdecl
    rcases List.mem_cons.mp hdecl with rfl | hlater
    · have hlead : Lead.none.after (before ++ o.before) = Lead.none.after o.before := by
        rw [Lead.after_append, hs.after]
      refine ⟨before ++ o.before, rest, o.after, _, rfl, ?_, ?_, ?_, hmatch⟩
      · rw [hb, hcs, hbody, List.append_assoc]
      · rw [hlead]
        exact hbody ▸ hsplit
      · rw [hb, hcs, List.append_assoc]
    · exact ih (Or.inr ((splitBlock_ends hsplit).append_left _)) (text_behind_found hb hf hsplit)
        decl hlater

theorem exists_keyword_of_covers (hne : keywords ≠ [])
    (hid : ∀ keyword ∈ keywords, isIdentifier keyword = true) {front header later : List Char}
    {left : Option Char} (hb : buffer = front ++ (header ++ later))
    (hmatch : (headerPattern keywords).match? left (header ++ later) = some (header, later))
    {literal : PlacedLiteral} (hl : literal ∈ literals buffer)
    (hcover : literal.Covers (byteLength front)) :
    ∃ keyword ∈ keywords, keyword <:+: literal.text := by
  obtain ⟨keyword, hmem, run, -, hheader⟩ := headerPattern_match hmatch
  have hnames : alternatives keywords = keywords := if_neg hne
  rw [hnames] at hmem
  refine ⟨keyword, hmem, ?_⟩
  obtain ⟨before, after, quote, body, hbuffer, hstart, htext, hquote, htail⟩ :=
    exists_of_mem_literalsFrom hl
  rw [Nat.zero_add] at hstart
  obtain ⟨hlow, hhigh⟩ := hcover
  -- The literal splits where the header begins.
  obtain ⟨first, rfl, hfirst⟩ := exists_append_of_byteLength_le (hbuffer.symm.trans hb) (by omega)
  rw [byteLength_append] at hlow hhigh
  rw [PlacedLiteral.stop] at hhigh
  obtain ⟨second, hsecond, hrest⟩ := exists_append_of_byteLength_le hfirst.symm (by omega)
  rw [hheader, List.append_assoc, List.append_assoc] at hrest
  rcases List.append_eq_append_iff.mp hrest with ⟨e, he, -⟩ | ⟨e, he, hafter⟩
  · exact ⟨first, e, by rw [hsecond, he, List.append_assoc]⟩
  · cases e with
    | nil => exact ⟨first, [], by rw [hsecond, he]; simp⟩
    | cons d e =>
      -- The keyword would run on behind the literal, which ends with a quote or before a line feed.
      exfalso
      have hname := isNameChar_of_mem_isIdentifier (hid keyword hmem)
      have hnext : isNameChar d = true := hname d (by simp [he])
      have hne : second ≠ [] := by
        rintro rfl
        rw [hsecond, byteLength_append, byteLength_nil] at hhigh
        omega
      rcases htail.ends with hfeed | hlast
      · obtain rfl := hfeed d (by rw [hafter]; rfl)
        exact absurd hnext (by decide)
      · have hend : second.getLast? = some quote := by
          rw [← List.getLast?_append_of_ne_nil first hne, ← hsecond, htext, List.getLast?_cons, hlast]
          rfl
        have hquoteName : isNameChar quote = true := by
          apply hname
          rw [he]
          exact List.mem_append_left _ (List.mem_of_getLast? hend)
        rcases hquote with rfl | rfl <;> exact absurd hquoteName (by decide)

/-- A class that the locator yields skips the literals of the text on its way, unless it begins inside
one of them. Then that literal contains a class keyword. -/
theorem locator_literals (config : Config) {n : Nat} {decl : ClassBlock}
    (h : Locator.item? (config.classKeywords.map String.toList) buffer {} n = some (.ok decl)) :
    (decl.BeginsInLiteral buffer ∨ decl.AgreesOnLiterals buffer) ∧
      (config.classKeywords ≠ [] →
        (∀ keyword ∈ config.classKeywords, isIdentifier keyword.toList = true) →
        ∀ literal ∈ literals buffer, literal.Covers decl.offset →
          ∃ keyword ∈ config.classKeywords, keyword.toList <:+: literal.text) := by
  have hs : IsSeam [] := Or.inl rfl
  have hscan : Scans (config.classKeywords.map String.toList) [] buffer (config.scan buffer) :=
    scans_startingAt _ [] buffer
  have hdecl : decl ∈ (config.scan buffer).classes := by
    rw [← Scan.filterMap_items, List.mem_filterMap]
    have hitem := (Locator.item?_eq_items hs hscan rfl n).symm.trans h
    exact ⟨_, List.mem_of_getElem? hitem, rfl⟩
  obtain ⟨front, rest, later, left, hoffset, hbody, hsplit, hheader, hmatch⟩ :=
    hscan.exists_read hs rfl decl hdecl
  refine ⟨?_, ?_⟩
  · by_cases hin : decl.BeginsInLiteral buffer
    · exact Or.inl hin
    · exact Or.inr (ClassBlock.agreesOnLiterals hbody hoffset hsplit hin)
  · intro hne hid literal hl hcover
    rw [← hoffset] at hcover
    obtain ⟨keyword, hm, hinfix⟩ := exists_keyword_of_covers (by simpa using hne)
      (List.forall_mem_map.mpr hid) hheader hmatch hl hcover
    obtain ⟨name, hname, rfl⟩ := List.mem_map.mp hm
    exact ⟨name, hname, hinfix⟩

/-- A text with a class in a string literal and another one behind it. -/
def quotedClassUnit : List Char :=
  "f(\"class A \x7b \x7d\"); class B \x7b char c = '\x7d'; \x7d".toList

def quotedClass : ClassBlock :=
  ⟨"A", "class A \x7b".toList, "class A \x7b \x7d".toList, 3⟩

def unquotedClass : ClassBlock :=
  ⟨"B", "class B \x7b".toList, "class B \x7b char c = '\x7d'; \x7d".toList, 18⟩

private theorem item?_quotedClassUnit :
    Locator.item? ["class".toList] quotedClassUnit {} 0 = some (.ok quotedClass) ∧
      Locator.item? ["class".toList] quotedClassUnit {} 1 = some (.ok unquotedClass) := by
  decide +kernel

theorem locator_literals_quotedClassUnit :
    Locator.item? ["class".toList] quotedClassUnit {} 1 = some (.ok unquotedClass) ∧
      unquotedClass.AgreesOnLiterals quotedClassUnit ∧
      Locator.item? ["class".toList] quotedClassUnit {} 0 = some (.ok quotedClass) ∧
      ∀ literal ∈ literals quotedClassUnit, literal.Covers quotedClass.offset →
        ∃ keyword ∈ ["class"], keyword.toList <:+: literal.text := by
  obtain ⟨hquoted, hunquoted⟩ := item?_quotedClassUnit
  have hout : ¬ unquotedClass.BeginsInLiteral quotedClassUnit := by decide +kernel
  exact ⟨hunquoted, (locator_literals {} hunquoted).1.resolve_left hout, hquoted,
    (locator_literals {} hquoted).2 (by decide) (by decide)⟩

/-- The locator yields a class that begins inside a literal. -/
theorem exists_item_beginsInLiteral :
    ∃ decl, Locator.item? ["class".toList] quotedClassUnit {} 0 = some (.ok decl) ∧
      decl.BeginsInLiteral quotedClassUnit := by
  have hin : quotedClass.BeginsInLiteral quotedClassUnit := by decide +kernel
  exact ⟨quotedClass, item?_quotedClassUnit.1, hin⟩

end Reflector
