import Reflector.Proofs.Locator
/-!
# Texts one behind the other

A header and its block are read off the text up to their last brace, so that more text behind them
changes nothing, and a scan that has come to the end of one text goes on with the next one as if it
began there.
-/

namespace Reflector

open Text Source

variable {keywords : List (List Char)}

private theorem headerPattern_find?_append_right (hk : ∀ k ∈ keywords, '{' ∉ k) {left : Option Char}
    {cs : List Char} {o : Occurrence} (h : (headerPattern keywords).find? left cs = some o)
    (more : List Char) :
    (headerPattern keywords).find? left (cs ++ more) =
      some { o with after := o.after ++ more } := by
  obtain ⟨hcs, hmatch, hleft⟩ := Pattern.find?_eq_some h
  obtain ⟨front, hpiece, -⟩ := headerPattern_brace hk hmatch
  have hbrace : '{' ∈ o.piece := by simp [hpiece]
  have hskip : ∀ a b, o.before = a ++ b → b ≠ [] →
      (headerPattern keywords).match? (a.getLast?.or left) (b ++ (o.piece ++ o.after ++ more)) =
        none := by
    intro a b hab hb
    have hlt : a.length < o.before.length := by
      rw [hab, List.length_append]
      exact Nat.lt_add_of_pos_right (List.length_pos_iff.mpr hb)
    have hnone := hleft a (b ++ (o.piece ++ o.after)) (by rw [hcs, hab]; simp) hlt
    rw [← List.append_assoc, headerPattern_append_right hk (by simp [hbrace]), hnone]
    rfl
  have hfound : (headerPattern keywords).match? (o.before.getLast?.or left)
      (o.piece ++ o.after ++ more) = some (o.piece, o.after ++ more) := by
    rw [headerPattern_append_right hk (by simp [hbrace]), hmatch]
    rfl
  rw [hcs, List.append_assoc, Pattern.find?_append_of_forall left _ hskip,
    Pattern.find?_of_match hfound]
  simp

def Ending.shift (bytes : Nat) : Ending → Ending
  | unbalanced offset => unbalanced (bytes + offset)
  | ending => ending

/-- A scan with so much more text before it. -/
def Scan.shift (bytes : Nat) (scan : Scan) : Scan :=
  ⟨scan.classes.map (ClassBlock.shift bytes), scan.ending.shift bytes⟩

private theorem Scan.items_shift (bytes : Nat) (scan : Scan) :
    (scan.shift bytes).items = scan.items.map (Except.map (ClassBlock.shift bytes)) := by
  obtain ⟨classes, ending⟩ := scan
  cases ending <;> simp [items, shift, Ending.shift, Except.map]

theorem Scan.filterMap_items (scan : Scan) : scan.items.filterMap Except.toOption = scan.classes := by
  obtain ⟨classes, ending⟩ := scan
  cases ending <;> simp [items, Except.toOption, List.filterMap_map, Function.comp_def]

namespace Scans

variable {before cs : List Char} {scan later : Scan}

/-- What stands before the text that is scanned only moves the offsets. -/
theorem shift (h : Scans keywords before cs scan) (front : List Char) :
    Scans keywords (front ++ before) cs (scan.shift (byteLength front)) := by
  induction h with
  | complete hf => exact .complete hf
  | @unbalanced before cs o hf hb =>
    have hend : Scans keywords (front ++ before) cs
        ⟨[], .unbalanced (byteLength (front ++ before ++ o.before))⟩ := .unbalanced hf hb
    rw [List.append_assoc, byteLength_append] at hend
    exact hend
  | failed hf hb hn => exact .failed hf hb hn
  | @found before cs o body rest name later hf hb hn _ ih =>
    have hlater : Scans keywords (front ++ before ++ o.before ++ body) rest
        (later.shift (byteLength front)) := by
      simpa only [List.append_assoc] using ih
    have hfound := Scans.found hf hb hn hlater
    rw [List.append_assoc front, byteLength_append] at hfound
    exact hfound

private theorem eq_nil_of_stopBehind_nil
    (h : stopBehind (byteLength before) [] = byteLength (before ++ cs)) : cs = [] := by
  apply byteLength_eq_zero
  rw [byteLength_append] at h
  exact Nat.left_eq_add.mp h

/-- A scan whose last class ends with the text goes on with the text behind it. -/
theorem append (hk : ∀ k ∈ keywords, '{' ∉ k) (h : Scans keywords before cs scan)
    (hend : stopBehind (byteLength before) scan.classes = byteLength (before ++ cs))
    {more : List Char} (hlater : Scans keywords (before ++ cs) more later) :
    Scans keywords before (cs ++ more) ⟨scan.classes ++ later.classes, later.ending⟩ := by
  induction h with
  -- Where the scan ends without a class, `hend` leaves nothing to read.
  | complete hf =>
    obtain rfl := eq_nil_of_stopBehind_nil hend
    rwa [List.append_nil] at hlater
  | unbalanced hf hb =>
    obtain rfl := eq_nil_of_stopBehind_nil hend
    exact absurd (Pattern.length_after_lt hf) (Nat.not_lt_zero _)
  | failed hf hb hn =>
    obtain rfl := eq_nil_of_stopBehind_nil hend
    exact absurd (Pattern.length_after_lt hf) (Nat.not_lt_zero _)
  | @found before cs o body rest name found hf hb hn _ ih =>
    have htext : before ++ cs = before ++ o.before ++ body ++ rest := text_behind_found rfl hf hb
    rw [htext] at hlater hend
    have hstop : stopBehind (byteLength (before ++ o.before ++ body)) found.classes =
        byteLength (before ++ o.before ++ body ++ rest) := by
      rw [← hend, stopBehind_cons, byteLength_append (before ++ o.before) body]
      rfl
    have hsplit := closeBlock_append_right hb more
    rw [List.append_assoc] at hsplit
    exact .found (headerPattern_find?_append_right hk hf more) hsplit hn (ih hstop hlater)

end Scans

namespace Locator

private theorem Yields.unique {buffer : List Char} {items items' : List (Except Failure ClassBlock)}
    (h : Yields keywords buffer items) (h' : Yields keywords buffer items') : items = items' :=
  List.ext_getElem? fun n => (h n).symm.trans (h' n)

theorem yields_of_scans {buffer : List Char} {scan : Scan} (h : Scans keywords [] buffer scan) :
    Yields keywords buffer scan.items :=
  item?_eq_items (Or.inl rfl) h rfl

end Locator

/-- If the last class of a text ends with it, then the classes of that text and of the one behind it
are found one after the other. -/
theorem locator_append (config : Config) {a : List Char} {classes : List ClassBlock}
    {last : ClassBlock} (hk : ∀ keyword ∈ config.classKeywords, '{' ∉ keyword.toList)
    (ha : Locator.Yields (config.classKeywords.map String.toList) a (classes.map .ok))
    (hlast : classes.getLast? = some last) (hstop : last.stop = byteLength a) (b : List Char) :
    ∃ items, Locator.Yields (config.classKeywords.map String.toList) b items ∧
      Locator.Yields (config.classKeywords.map String.toList) (a ++ b)
        (classes.map .ok ++ items.map (Except.map (ClassBlock.shift (byteLength a)))) := by
  have hk' : ∀ keyword ∈ config.classKeywords.map String.toList, '{' ∉ keyword :=
    List.forall_mem_map.mpr hk
  have hscan : Scans (config.classKeywords.map String.toList) [] a (config.scan a) :=
    scans_startingAt _ [] a
  have hlater : Scans (config.classKeywords.map String.toList) [] b (config.scan b) :=
    scans_startingAt _ [] b
  have hclasses : (config.scan a).classes = classes := by
    rw [← Scan.filterMap_items, (Locator.yields_of_scans hscan).unique ha]
    simp [List.filterMap_map, Function.comp_def, Except.toOption]
  have hend : stopBehind (byteLength []) (config.scan a).classes = byteLength ([] ++ a) := by
    rw [hclasses, stopBehind, hlast]
    exact hstop
  have hbehind : Scans (config.classKeywords.map String.toList) ([] ++ a) b
      ((config.scan b).shift (byteLength a)) := by
    have hshift := hlater.shift a
    rwa [List.append_nil] at hshift
  refine ⟨(config.scan b).items, Locator.yields_of_scans hlater, ?_⟩
  have hall := Locator.yields_of_scans (hscan.append hk' hend hbehind)
  rw [hclasses] at hall
  rw [← Scan.items_shift]
  simpa [Scan.items] using hall

/-- A text that is one class, with a brace in a character literal. -/
def literalBraceUnit : List Char :=
  "class A \x7b char c = '\x7d'; \x7d".toList

def literalBraceClass : ClassBlock :=
  ⟨"A", "class A \x7b".toList, literalBraceUnit, 0⟩

theorem locator_append_literalBraceUnit :
    (∀ keyword ∈ ["class"], '{' ∉ keyword.toList) ∧
      Locator.Yields ["class".toList] literalBraceUnit [.ok literalBraceClass] ∧
      literalBraceClass.stop = byteLength literalBraceUnit ∧
      ∃ items, Locator.Yields ["class".toList] strayBraceUnit items ∧
        Locator.Yields ["class".toList] (literalBraceUnit ++ strayBraceUnit)
          (.ok literalBraceClass ::
            items.map (Except.map (ClassBlock.shift (byteLength literalBraceUnit)))) := by
  have hk : ∀ keyword ∈ ["class"], '{' ∉ keyword.toList := by decide
  have hscan : ({} : Config).scan literalBraceUnit = ⟨[literalBraceClass], .complete⟩ := by
    decide +kernel
  have hyields : Locator.Yields ["class".toList] literalBraceUnit ([literalBraceClass].map .ok) := by
    have hitems : (({} : Config).scan literalBraceUnit).items = [literalBraceClass].map .ok := by
      rw [hscan]
      rfl
    rw [← hitems]
    exact Locator.yields_of_scans (scans_startingAt _ [] literalBraceUnit)
  have hstop : literalBraceClass.stop = byteLength literalBraceUnit := by decide +kernel
  exact ⟨hk, hyields, hstop, locator_append {} hk hyields rfl hstop strayBraceUnit⟩

end Reflector
