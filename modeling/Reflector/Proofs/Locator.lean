import Reflector.Class.Locator
import Reflector.Generation
import Reflector.Proofs.Block
import Reflector.Proofs.Header
import Reflector.Proofs.Scan
/-!
# The run of a locator

A locator yields the classes that a scan finds, one for each call, and then nothing. The scan goes on
behind a brace, which ends every number and every word, so that the text before that place decides
nothing about the headers and the literals behind it. Hence what holds of the unread text holds of the
whole text.
-/

namespace Reflector

open Text Source

variable {keywords : List (List Char)} {buffer : List Char}

/-- A scan may go on behind this text: it is empty or ends with a brace. -/
def IsSeam (before : List Char) : Prop :=
  before = [] ∨ EndsWithBrace before

namespace IsSeam

variable {before : List Char}

theorem after (h : IsSeam before) : Lead.none.after before = .none := by
  rcases h with rfl | h
  · rfl
  · exact h.after .none

private theorem not_isWord (h : IsSeam before) : ∀ c ∈ before.getLast?, isWord c = false := by
  intro c hc
  rcases h with rfl | ⟨inside, d, rfl, hd⟩
  · simp at hc
  · rw [List.getLast?_concat, Option.mem_some_iff] at hc
    rw [← hc]
    rcases hd with rfl | rfl <;> decide +kernel

end IsSeam

/-- No header of the buffer begins at a byte offset from `lo` on and before `hi`. -/
def NoHeader (keywords : List (List Char)) (buffer : List Char) (lo hi : Nat) : Prop :=
  ∀ a b, buffer = a ++ b → lo ≤ byteLength a → byteLength a < hi →
    (headerPattern keywords).match? a.getLast? b = none

/-- The class stands in the buffer at its offset, and its name can be a name. -/
structure ClassBlock.StandsIn (keywords : List (List Char)) (buffer : List Char)
    (decl : ClassBlock) : Prop where
  text : ∃ before after, buffer = before ++ decl.body ++ after ∧ byteLength before = decl.offset
  header : decl.header <+: decl.body
  brace : decl.header.getLast? = some '{'
  name_ne_nil : decl.name.toList ≠ []
  name_solid : ∀ c ∈ decl.name.toList, isBlank c = false
  name_free : decl.name.toList ∉ keywords

/-- The offset just past the last of these classes, or `start` if there is none. -/
def stopBehind (start : Nat) (decls : List ClassBlock) : Nat :=
  (decls.getLast?.map ClassBlock.stop).getD start

theorem stopBehind_cons (start : Nat) (decl : ClassBlock) (decls : List ClassBlock) :
    stopBehind start (decl :: decls) = stopBehind decl.stop decls := by
  unfold stopBehind
  rw [List.getLast?_cons]
  cases decls.getLast? <;> rfl

/-- The left neighbour of a place in the unread text is judged alike with and without the text read
before. -/
theorem match?_behind {before : List Char} (hs : IsSeam before) (a b : List Char) :
    (headerPattern keywords).match? (before ++ a).getLast? b =
      (headerPattern keywords).match? (a.getLast?.or none) b := by
  rw [List.getLast?_append]
  cases a.getLast? with
  | none => exact headerPattern_left hs.not_isWord b
  | some c => rfl

private theorem noHeader_of_find?_eq_none {before cs : List Char} (hs : IsSeam before)
    (hb : buffer = before ++ cs) (hf : (headerPattern keywords).find? none cs = none) (hi : Nat) :
    NoHeader keywords buffer (byteLength before) hi := by
  intro a b hab hlo _
  obtain ⟨e, rfl, he⟩ := exists_append_of_byteLength_le (hb.symm.trans hab) hlo
  rw [match?_behind hs]
  exact Pattern.find?_eq_none hf he

private theorem noHeader_of_find?_eq_some {before cs : List Char} {o : Occurrence}
    (hs : IsSeam before)
    (hb : buffer = before ++ cs) (hf : (headerPattern keywords).find? none cs = some o) :
    NoHeader keywords buffer (byteLength before) (byteLength before + byteLength o.before) := by
  intro a b hab hlo hhi
  obtain ⟨e, rfl, he⟩ := exists_append_of_byteLength_le (hb.symm.trans hab) hlo
  rw [match?_behind hs]
  obtain ⟨hcs, -, hleft⟩ := Pattern.find?_eq_some hf
  apply hleft e b he
  apply length_lt_of_byteLength_lt (he.symm.trans hcs)
  rw [byteLength_append] at hhi
  exact Nat.lt_of_add_lt_add_left hhi

theorem text_behind_found {before cs body rest : List Char} {o : Occurrence}
    (hb : buffer = before ++ cs) (hf : (headerPattern keywords).find? none cs = some o)
    (hsplit : splitBlock (Lead.none.after o.before) (o.piece ++ o.after) = some (body, rest)) :
    buffer = before ++ o.before ++ body ++ rest := by
  rw [hb, (Pattern.find?_eq_some hf).1, (splitBlock_sound hsplit).2]
  simp only [List.append_assoc]

private theorem standsIn_of_find? (hk : ∀ k ∈ keywords, '{' ∉ k) {before cs body rest : List Char}
    {o : Occurrence} {name : String} (hb : buffer = before ++ cs)
    (hf : (headerPattern keywords).find? none cs = some o)
    (hsplit : splitBlock (Lead.none.after o.before) (o.piece ++ o.after) = some (body, rest))
    (hn : headerName keywords o.piece = .ok name) :
    ClassBlock.StandsIn keywords buffer ⟨name, o.piece, body, byteLength (before ++ o.before)⟩ := by
  obtain ⟨front, hpiece, hfront⟩ := headerPattern_brace hk (Pattern.find?_eq_some hf).2.1
  obtain ⟨hne, hsolid, hfree⟩ := headerName_ok hn
  refine ⟨⟨before ++ o.before, rest, ?_, rfl⟩, ?_, ?_, hne, hsolid, hfree⟩
  · exact text_behind_found hb hf hsplit
  · rw [hpiece, List.append_assoc] at hsplit
    change o.piece <+: body
    rw [hpiece]
    exact prefix_splitBlock hsplit hfront
  · change o.piece.getLast? = some '{'
    rw [hpiece, List.getLast?_concat]

namespace Scans

variable {before cs : List Char} {scan : Scan}

private theorem standsIn (hk : ∀ k ∈ keywords, '{' ∉ k) (h : Scans keywords before cs scan)
    (hb : buffer = before ++ cs) : ∀ decl ∈ scan.classes, decl.StandsIn keywords buffer := by
  induction h with
  | complete hf => simp
  | unbalanced hf hsplit => simp
  | failed hf hsplit hn => simp
  | @found before cs o body rest name later hf hsplit hn _ ih =>
    intro decl hdecl
    rcases List.mem_cons.mp hdecl with rfl | hlater
    · exact standsIn_of_find? hk hb hf hsplit hn
    · exact ih (text_behind_found hb hf hsplit) decl hlater

private theorem le_offset (h : Scans keywords before cs scan) :
    ∀ decl ∈ scan.classes, byteLength before ≤ decl.offset := by
  induction h with
  | complete hf => simp
  | unbalanced hf hsplit => simp
  | failed hf hsplit hn => simp
  | @found before cs o body rest name later hf hsplit hn _ ih =>
    intro decl hdecl
    have hle : byteLength before ≤ byteLength (before ++ o.before) := by simp
    rcases List.mem_cons.mp hdecl with rfl | hlater
    · exact hle
    · have hfrom := ih decl hlater
      rw [byteLength_append] at hfrom
      omega

private theorem disjoint (h : Scans keywords before cs scan) :
    scan.classes.Pairwise fun a b => a.offset < a.stop ∧ a.stop ≤ b.offset := by
  induction h with
  | complete hf => exact .nil
  | unbalanced hf hsplit => exact .nil
  | failed hf hsplit hn => exact .nil
  | @found before cs o body rest name later hf hsplit hn hlater ih =>
    refine List.pairwise_cons.mpr ⟨?_, ih⟩
    intro decl hdecl
    have hfrom := hlater.le_offset decl hdecl
    rw [byteLength_append] at hfrom
    have hbody : byteLength body ≠ 0 := mt byteLength_eq_zero (splitBlock_sound hsplit).1
    exact ⟨Nat.lt_add_of_pos_right (Nat.pos_of_ne_zero hbody), hfrom⟩

private theorem noHeader (hs : IsSeam before) (h : Scans keywords before cs scan)
    (hb : buffer = before ++ cs) :
    (∀ early decl late, scan.classes = early ++ decl :: late →
        NoHeader keywords buffer (stopBehind (byteLength before) early) decl.offset) ∧
      (scan.ending = .complete →
        ∀ hi, NoHeader keywords buffer (stopBehind (byteLength before) scan.classes) hi) := by
  induction h with
  | complete hf => exact ⟨by simp, fun _ => noHeader_of_find?_eq_none hs hb hf⟩
  | unbalanced hf hsplit => exact ⟨by simp, by simp⟩
  | failed hf hsplit hn => exact ⟨by simp, by simp⟩
  | @found before cs o body rest name later hf hsplit hn _ ih =>
    have hrest := text_behind_found hb hf hsplit
    have hstop : byteLength (before ++ o.before ++ body) =
        byteLength (before ++ o.before) + byteLength body := byteLength_append _ _
    obtain ⟨hgaps, hend⟩ := ih (Or.inr ((splitBlock_ends hsplit).append_left _)) hrest
    rw [hstop] at hgaps hend
    refine ⟨?_, ?_⟩
    · intro early decl late heq
      cases early with
      | nil =>
        simp only [List.nil_append, List.cons.injEq] at heq
        rw [← heq.1]
        change NoHeader keywords buffer (byteLength before) (byteLength (before ++ o.before))
        rw [byteLength_append]
        exact noHeader_of_find?_eq_some hs hb hf
      | cons first early =>
        simp only [List.cons_append, List.cons.injEq] at heq
        rw [stopBehind_cons, ← heq.1]
        exact hgaps early decl late heq.2
    · intro hcomplete hi
      rw [stopBehind_cons]
      exact hend hcomplete hi

end Scans

namespace Locator

private theorem item?_of_done {l : Locator} (h : l.done = true) (n : Nat) :
    l.item? keywords buffer n = none := by
  induction n with
  | zero => rw [item?, next_of_done h]
  | succ n ih => rw [item?, next_of_done h, ih]

variable {before cs : List Char}

private theorem next_of_find?_eq_none (hb : buffer = before ++ cs)
    (hf : (headerPattern keywords).find? none cs = none) :
    next keywords buffer ⟨byteLength before, false⟩ = (none, ⟨byteLength before, true⟩) := by
  subst hb
  simp [next, splitFromByte_byteLength, hf]

theorem blockEnd?_behind {o : Occurrence} (hs : IsSeam before) (hb : buffer = before ++ cs)
    (hf : (headerPattern keywords).find? none cs = some o) :
    blockEnd? buffer (byteLength before + byteLength o.before) =
      (splitBlock (Lead.none.after o.before) (o.piece ++ o.after)).map fun (body, _) =>
        byteLength before + byteLength o.before + byteLength body := by
  have htext : buffer = before ++ o.before ++ (o.piece ++ o.after) := by
    rw [hb, (Pattern.find?_eq_some hf).1, List.append_assoc]
  rw [blockEnd?, htext, ← byteLength_append, splitFromByte_byteLength]
  simp only [Lead.after_append, hs.after]

private theorem next_of_unbalanced {o : Occurrence} (hs : IsSeam before) (hb : buffer = before ++ cs)
    (hf : (headerPattern keywords).find? none cs = some o)
    (hsplit : splitBlock (Lead.none.after o.before) (o.piece ++ o.after) = none) :
    next keywords buffer ⟨byteLength before, false⟩ = (none, ⟨byteLength before, true⟩) := by
  have hstop := blockEnd?_behind hs hb hf
  rw [hsplit] at hstop
  subst hb
  simp [next, splitFromByte_byteLength, hf, hstop]

private theorem next_of_balanced {o : Occurrence} {body rest : List Char} (hs : IsSeam before)
    (hb : buffer = before ++ cs) (hf : (headerPattern keywords).find? none cs = some o)
    (hsplit : splitBlock (Lead.none.after o.before) (o.piece ++ o.after) = some (body, rest)) :
    next keywords buffer ⟨byteLength before, false⟩ =
      match headerName keywords o.piece with
      | .ok name => (some (.ok ⟨name, o.piece, body, byteLength (before ++ o.before)⟩),
          ⟨byteLength (before ++ o.before ++ body), false⟩)
      | .error failure =>
        (some (.error failure), ⟨byteLength (before ++ o.before ++ body), true⟩) := by
  have hstop := blockEnd?_behind hs hb hf
  rw [hsplit] at hstop
  have hheader : slice (byteLength before + byteLength o.before)
      (byteLength before + byteLength o.before + byteLength o.piece) buffer = o.piece := by
    rw [hb, (Pattern.find?_eq_some hf).1, ← byteLength_append, ← List.append_assoc,
      ← List.append_assoc]
    exact slice_byteLength _ _ _
  have hbody : slice (byteLength before + byteLength o.before)
      (byteLength before + byteLength o.before + byteLength body) buffer = body := by
    rw [text_behind_found hb hf hsplit, ← byteLength_append]
    exact slice_byteLength _ _ _
  have hsuffix : (splitFromByte (byteLength before) buffer).2 = cs := by
    rw [hb, splitFromByte_byteLength]
  rw [next, if_neg Bool.false_ne_true]
  cases hname : headerName keywords o.piece <;>
    simp only [hsuffix, hf, hstop, Option.map_some, hheader, hbody, byteLength_append, hname]

/-- The calls of a locator yield the items of the scan one after the other, and then nothing. -/
theorem item?_eq_items (hs : IsSeam before) {scan : Scan} (h : Scans keywords before cs scan)
    (hb : buffer = before ++ cs) (n : Nat) :
    item? keywords buffer ⟨byteLength before, false⟩ n = scan.items[n]? := by
  induction h generalizing n with
  | complete hf =>
    cases n with
    | zero => simp [item?, next_of_find?_eq_none hb hf, Scan.items]
    | succ n => simp [item?, next_of_find?_eq_none hb hf, item?_of_done, Scan.items]
  | unbalanced hf hsplit =>
    cases n with
    | zero => simp [item?, next_of_unbalanced hs hb hf hsplit, Scan.items]
    | succ n => simp [item?, next_of_unbalanced hs hb hf hsplit, item?_of_done, Scan.items]
  | failed hf hsplit hn =>
    have hnext := next_of_balanced hs hb hf hsplit
    rw [hn] at hnext
    cases n with
    | zero => simp [item?, hnext, Scan.items]
    | succ n => simp [item?, hnext, item?_of_done, Scan.items]
  | @found before cs o body rest name later hf hsplit hn _ ih =>
    have hnext := next_of_balanced hs hb hf hsplit
    rw [hn] at hnext
    have hs' : IsSeam (before ++ o.before ++ body) := Or.inr ((splitBlock_ends hsplit).append_left _)
    have hitems := ih hs' (text_behind_found hb hf hsplit)
    cases n with
    | zero => simp [item?, hnext, Scan.items]
    | succ n =>
      rw [item?, hnext, hitems]
      simp [Scan.items]

private theorem items_ends {scan : Scan} {n : Nat} (h : ∀ decl, scan.items[n]? ≠ some (.ok decl)) :
    ∀ m, n < m → scan.items[m]? = none := by
  intro m hm
  have hlen : scan.classes.length ≤ n := by
    by_cases hn : n < scan.classes.length
    · refine absurd ?_ (h scan.classes[n])
      rw [Scan.items, List.getElem?_append_left (by simpa using hn)]
      simp [hn]
    · omega
  have hitems : scan.items.length ≤ scan.classes.length + 1 := by
    unfold Scan.items
    split <;> simp
  exact List.getElem?_eq_none (by omega)

/-- The run of a locator over a buffer. -/
structure IsRun (keywords : List (List Char)) (buffer : List Char) (scan : Scan) : Prop where
  /-- The calls yield these items, finitely many, of which only the last can be a failure. -/
  items : ∀ n, item? keywords buffer {} n = scan.items[n]?
  /-- A call that yields no class is followed only by calls that yield nothing. -/
  ends : ∀ n, (∀ decl, item? keywords buffer {} n ≠ some (.ok decl)) →
    ∀ m, n < m → item? keywords buffer {} m = none
  stands : ∀ decl ∈ scan.classes, decl.StandsIn keywords buffer
  disjoint : scan.classes.Pairwise fun a b => a.offset < a.stop ∧ a.stop ≤ b.offset
  /-- No header begins between two classes or before the first one. -/
  gaps : ∀ early decl late, scan.classes = early ++ decl :: late →
    NoHeader keywords buffer (stopBehind 0 early) decl.offset
  /-- No header begins behind the last class of a complete scan. -/
  tail : scan.ending = .complete → ∀ hi, NoHeader keywords buffer (stopBehind 0 scan.classes) hi

end Locator

theorem standsIn_of_mem_scan {config : Config} {buffer : List Char}
    (hk : ∀ keyword ∈ config.classKeywords, '{' ∉ keyword.toList) :
    ∀ decl ∈ (config.scan buffer).classes,
      decl.StandsIn (config.classKeywords.map String.toList) buffer := by
  have hk' : ∀ keyword ∈ config.classKeywords.map String.toList, '{' ∉ keyword := by
    intro keyword hm
    obtain ⟨s, hmem, rfl⟩ := List.mem_map.mp hm
    exact hk s hmem
  exact (scans_startingAt _ [] buffer).standsIn hk' rfl

theorem locator_run (config : Config) (buffer : List Char)
    (hk : ∀ keyword ∈ config.classKeywords, '{' ∉ keyword.toList) :
    Locator.IsRun (config.classKeywords.map String.toList) buffer (config.scan buffer) := by
  have hs : IsSeam [] := Or.inl rfl
  have hscan : Scans (config.classKeywords.map String.toList) [] buffer (config.scan buffer) :=
    scans_startingAt _ [] buffer
  have hitems := Locator.item?_eq_items hs hscan rfl
  obtain ⟨hgaps, htail⟩ := hscan.noHeader hs rfl
  refine ⟨hitems, ?_, standsIn_of_mem_scan hk, hscan.disjoint, hgaps, htail⟩
  intro n hn m hm
  have hend : ∀ decl, (config.scan buffer).items[n]? ≠ some (.ok decl) := by
    intro decl hdecl
    exact hn decl ((hitems n).trans hdecl)
  exact (hitems m).trans (Locator.items_ends hend m hm)

/-- A class with a closing brace and a quote in its header, between one without and one that has no
name. -/
def strayBraceUnit : List Char :=
  "class A \x7b \x7d; struct B \x7d ' \x7b ' class \x7b \x7d; class \x7b \x7d class C \x7b \x7d".toList

/-- The second brace of the unit's second header opens its block, whose name is the quote in front of that
brace. The third header has no name, so that class `C` is not reached. -/
def strayBraceScan : Scan where
  classes :=
    [{ name := "A", header := "class A \x7b".toList, body := "class A \x7b \x7d".toList, offset := 0 },
      { name := "'", header := "struct B \x7d ' \x7b".toList
        body := "struct B \x7d ' \x7b ' class \x7b".toList, offset := 13 }]
  ending := .failed (.unnamedClass "class \x7b")

theorem locator_run_strayBraceUnit :
    (∀ keyword ∈ ["class", "struct"], '{' ∉ keyword.toList) ∧
      ({ classKeywords := ["class", "struct"] } : Config).scan strayBraceUnit = strayBraceScan ∧
      Locator.IsRun ["class".toList, "struct".toList] strayBraceUnit strayBraceScan := by
  have hkeywords : ∀ keyword ∈ ["class", "struct"], '{' ∉ keyword.toList := by decide
  have hscan : ({ classKeywords := ["class", "struct"] } : Config).scan strayBraceUnit =
      strayBraceScan := by decide +kernel
  have hrun := locator_run { classKeywords := ["class", "struct"] } strayBraceUnit hkeywords
  rw [hscan] at hrun
  exact ⟨hkeywords, hscan, hrun⟩

end Reflector
