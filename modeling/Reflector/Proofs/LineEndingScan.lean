import Reflector.Block.Literals
import Reflector.Proofs.Concatenation
import Reflector.Proofs.LineEndingSource

namespace Reflector

open Text Source

private theorem closeBlock_of_tail {lead : Lead} {quote : Char} {body after : List Char}
    (ho : lead.opens quote = true) (h : LiteralTail quote body after) (nesting : Nesting) :
    closeBlock nesting lead (quote :: (body ++ after)) =
      (closeBlock nesting (lead.after (quote :: body)) after).map fun (text, rest) =>
        (quote :: body ++ text, rest) := by
  rw [closeBlock, if_pos ho, h.splitLiteral_append]

private theorem map_crlf_cons {front front' : List Char} (hfront : crlf front = front')
    (block : Option (List Char × List Char)) :
    (block.map fun (text, rest) => (front ++ text, rest)).map (Prod.map crlf crlf) =
      (block.map (Prod.map crlf crlf)).map fun (text, rest) => (front' ++ text, rest) := by
  cases block with
  | none => rfl
  | some found => simp [← hfront]

private theorem closeBlock_crlf {nesting : Nesting} {lead : Lead} {cs : List Char} {offset : Nat}
    (hn : nesting.isClosed = false)
    (h : ∀ literal ∈ (traceBlock nesting offset lead cs).1, '\n' ∉ literal.text) :
    closeBlock nesting lead (crlf cs) = (closeBlock nesting lead cs).map (Prod.map crlf crlf) := by
  fun_induction closeBlock nesting lead cs generalizing offset with
  | case1 => rw [crlf_nil, closeBlock]; rfl
  | case2 nesting lead c cs ho _ literal =>
    rename_i ih
    rw [traceBlock, if_pos ho] at h
    obtain ⟨hliteral, hrest⟩ := List.forall_mem_cons.mp h
    have ih := ih hn hrest
    have hquote : c ≠ '\n' ∧ c ≠ '\r' := by
      constructor <;>
      · rintro rfl
        rw [opens_of_isLineBreak (by decide)] at ho
        contradiction
    have hbody : '\n' ∉ (splitLiteral c cs).1 := fun hm => hliteral (List.mem_cons_of_mem c hm)
    have hself : crlf literal = literal := crlf_eq_self hliteral
    have hcs : crlf (c :: cs) = c :: ((splitLiteral c cs).1 ++ crlf (splitLiteral c cs).2) := by
      rw [← crlf_eq_self hbody, ← crlf_append, splitLiteral_append, crlf_cons hquote.1]
    rw [hcs, map_crlf_cons hself, ← ih]
    rcases (splitLiteral_tail c cs).crlf hquote.2 hbody with hsame | ⟨rest, hrest, hmore⟩
    · exact closeBlock_of_tail ho hsame nesting
    · -- The block reads on over the carriage return, inside the literal as well as behind it.
      have hread := closeBlock_of_tail ho hmore nesting
      have hreturn := ReadsOn.of_isFlat (c := '\r') (by decide) hn (lead.after literal)
        ('\n' :: crlf rest)
      rw [List.singleton_append] at hreturn
      rw [hrest, crlf_lineFeed, hreturn]
      simpa [literal, Option.map_map, Function.comp_def] using hread
  | case3 nesting lead c cs ho hclosed =>
    have hc : c ≠ '\n' := by
      rintro rfl
      rw [show nesting.next '\n' = nesting from rfl, hn] at hclosed
      contradiction
    rw [crlf_cons hc, closeBlock, if_neg ho, if_pos hclosed, Option.map_some, Prod.map_apply,
      crlf_cons hc, crlf_nil]
  | case4 nesting lead c cs ho hclosed ih =>
    rw [traceBlock, if_neg ho, if_neg hclosed] at h
    have hnext : (nesting.next c).isClosed = false := by simpa using hclosed
    have ih := ih hnext h
    by_cases hc : c = '\n'
    · subst hc
      have hread : closeBlock nesting lead (['\r', '\n'] ++ crlf cs) = _ :=
        ReadsOn.of_forall_isFlat (by simp [isFlat]) hn lead (crlf cs)
      have hlead : lead.after ['\r', '\n'] = lead.next '\n' := Lead.after_crlf lead ['\n']
      rw [hlead] at hread
      have hself : nesting.next '\n' = nesting := rfl
      rw [hself] at ih ⊢
      rw [ih] at hread
      have hfeed : crlf ['\n'] = ['\r', '\n'] := rfl
      exact hread.trans (map_crlf_cons hfeed _).symm
    · rw [crlf_cons hc, closeBlock, if_neg ho, if_neg hclosed, ih]
      exact (map_crlf_cons (crlf_cons hc []) _).symm

/-- The two items are the same class up to the line endings, or failures both. -/
inductive SameUpToLines : Except Failure ClassBlock → Except Failure ClassBlock → Prop
  | declaration {decl decl'} : decl'.name = decl.name → decl'.header = crlf decl.header →
      decl'.body = crlf decl.body → SameUpToLines (.ok decl) (.ok decl')
  | failure (failure failure') : SameUpToLines (.error failure) (.error failure')

variable {keywords : List (List Char)} {buffer : List Char}

/-- From no header of the buffer on does the search for the end of the block skip a literal that goes on
over a line end. -/
def BlocksKeepLines (keywords : List (List Char)) (buffer : List Char) : Prop :=
  ∀ start ∈ (headerPattern keywords).offsetsFrom 0 none buffer,
    ∀ literal ∈ skippedLiterals buffer start, '\n' ∉ literal.text

instance (keywords : List (List Char)) (buffer : List Char) :
    Decidable (BlocksKeepLines keywords buffer) :=
  inferInstanceAs (Decidable (∀ start ∈ (headerPattern keywords).offsetsFrom 0 none buffer,
    ∀ literal ∈ skippedLiterals buffer start, '\n' ∉ literal.text))

private theorem BlocksKeepLines.splitBlock_crlf (h : BlocksKeepLines keywords buffer)
    {before cs : List Char} {o : Occurrence} (hs : IsSeam before) (hb : buffer = before ++ cs)
    (hf : (headerPattern keywords).find? none cs = some o) :
    splitBlock (Lead.none.after o.crlf.before) (o.crlf.piece ++ o.crlf.after) =
      (splitBlock (Lead.none.after o.before) (o.piece ++ o.after)).map (Prod.map crlf crlf) := by
  obtain ⟨hcs, hmatch, -⟩ := Pattern.find?_eq_some hf
  have htext : buffer = (before ++ o.before) ++ (o.piece ++ o.after) := by
    rw [hb, hcs, List.append_assoc]
  have hstart : byteLength (before ++ o.before) ∈
      (headerPattern keywords).offsetsFrom 0 none buffer := by
    rw [Pattern.mem_offsetsFrom_iff]
    refine ⟨_, _, htext, (Nat.zero_add _).symm, ?_⟩
    rw [Option.or_none, match?_behind hs, hmatch]
    rfl
  have hskipped := h _ hstart
  have hlead : Lead.none.after (before ++ o.before) = Lead.none.after o.before := by
    rw [Lead.after_append, hs.after]
  rw [skippedLiterals, htext, splitFromByte_byteLength] at hskipped
  simp only [hlead] at hskipped
  have hblock := closeBlock_crlf rfl hskipped
  rw [crlf_append] at hblock
  simpa [Occurrence.crlf, splitBlock] using hblock

theorem Scans.crlf (hk : ∀ keyword ∈ keywords, SingleLine keyword)
    (hblocks : BlocksKeepLines keywords buffer) {before cs : List Char} {scan : Scan}
    (hs : IsSeam before) (h : Scans keywords before cs scan) (hb : buffer = before ++ cs) :
    ∃ scan', Scans keywords (Text.crlf before) (Text.crlf cs) scan' ∧
      List.Forall₂ SameUpToLines scan.items scan'.items := by
  have hkeeps := headerPattern_keepsLines hk
  induction h with
  | @complete before cs hf =>
    have hf' := hkeeps.find?_crlf none cs
    rw [hf, Option.map_none] at hf'
    exact ⟨_, .complete hf', .nil⟩
  | @unbalanced before cs o hf hsplit =>
    have hf' := hkeeps.find?_crlf none cs
    rw [hf, Option.map_some] at hf'
    have hsplit' := hblocks.splitBlock_crlf hs hb hf
    rw [hsplit, Option.map_none] at hsplit'
    exact ⟨_, .unbalanced hf' hsplit', .nil⟩
  | @failed before cs o body rest failure hf hsplit hn =>
    have hf' := hkeeps.find?_crlf none cs
    rw [hf, Option.map_some] at hf'
    have hsplit' := hblocks.splitBlock_crlf hs hb hf
    rw [hsplit, Option.map_some] at hsplit'
    obtain ⟨failure', hn'⟩ := headerName_crlf_of_error hn
    exact ⟨_, .failed hf' hsplit' hn', .cons (.failure failure failure') .nil⟩
  | @found before cs o body rest name later hf hsplit hn _ ih =>
    have hf' := hkeeps.find?_crlf none cs
    rw [hf, Option.map_some] at hf'
    have hsplit' := hblocks.splitBlock_crlf hs hb hf
    rw [hsplit, Option.map_some] at hsplit'
    have hn' : headerName keywords o.crlf.piece = .ok name := headerName_crlf_of_ok hn
    obtain ⟨later', hlater', hitems⟩ := ih (Or.inr ((splitBlock_ends hsplit).append_left _))
      (text_behind_found hb hf hsplit)
    rw [crlf_append, crlf_append] at hlater'
    exact ⟨_, .found hf' hsplit' hn' hlater', .cons (.declaration rfl rfl rfl) hitems⟩

/-- Where no literal goes on over a line end, the line ending of a source text decides nothing: the
locator yields as many items either way, each the same class up to the line endings or a failure
both times. -/
theorem locator_crlf (config : Config) {src : List Char}
    (hkeyword : SingleLine config.stripKeyword.toList)
    (hk : ∀ keyword ∈ config.classKeywords, SingleLine keyword.toList)
    (hliterals : LiteralsKeepLines src)
    (hblocks : BlocksKeepLines (config.classKeywords.map String.toList)
      (prepare config.stripKeyword.toList src)) :
    ∃ items items',
      Locator.Yields (config.classKeywords.map String.toList)
        (prepare config.stripKeyword.toList src) items ∧
      Locator.Yields (config.classKeywords.map String.toList)
        (prepare config.stripKeyword.toList (crlf src)) items' ∧
      List.Forall₂ SameUpToLines items items' := by
  have hscan := scans_startingAt (config.classKeywords.map String.toList) []
    (prepare config.stripKeyword.toList src)
  obtain ⟨scan', hscan', hitems⟩ :=
    hscan.crlf (List.forall_mem_map.mpr hk) hblocks (Or.inl rfl) rfl
  refine ⟨_, scan'.items, Locator.yields_of_scans hscan, ?_, hitems⟩
  rw [prepare_crlf hkeyword hliterals]
  exact Locator.yields_of_scans hscan'

/-- A text with a header over two lines, comments, a quote that the line end closes, a line that goes
on outside literals and a class without a name. -/
def multilineUnit : List Char :=
  "// it's\nclass A final\n\x7b 'x\n/* \x7b\n*/ char c = '\x7d'; \x7d;\n\\\nclass\n\x7b \x7d".toList

theorem locator_crlf_multilineUnit :
    SingleLine "final".toList ∧ (∀ keyword ∈ ["class"], SingleLine keyword.toList) ∧
      LiteralsKeepLines multilineUnit ∧
      BlocksKeepLines ["class".toList] (prepare "final".toList multilineUnit) ∧
      ∃ items items',
        Locator.Yields ["class".toList] (prepare "final".toList multilineUnit) items ∧
        Locator.Yields ["class".toList] (prepare "final".toList (crlf multilineUnit)) items' ∧
        List.Forall₂ SameUpToLines items items' := by
  have hkeyword : SingleLine "final".toList := by decide
  have hk : ∀ keyword ∈ ["class"], SingleLine keyword.toList := by decide
  have hliterals : LiteralsKeepLines multilineUnit := by decide +kernel
  have hblocks : BlocksKeepLines ["class".toList] (prepare "final".toList multilineUnit) := by
    decide +kernel
  exact ⟨hkeyword, hk, hliterals, hblocks, locator_crlf {} hkeyword hk hliterals hblocks⟩

/-- A class with a literal that goes on over a line end, with a brace on the second line. -/
def continuedLiteralUnit : List Char :=
  "class A \x7b char *s = \"\\\n\x7d\"; \x7d".toList

/-- With the other line ending the literal ends on the first line, and the brace closes the class. -/
theorem not_sameUpToLines_continuedLiteralUnit :
    ¬ ∃ items items',
      Locator.Yields ["class".toList] (prepare "final".toList continuedLiteralUnit) items ∧
      Locator.Yields ["class".toList] (prepare "final".toList (crlf continuedLiteralUnit)) items' ∧
      List.Forall₂ SameUpToLines items items' := by
  rintro ⟨items, items', hitems, hitems', hsame⟩
  have hwhole : Locator.item? ["class".toList] (prepare "final".toList continuedLiteralUnit) {} 0 =
      some (.ok ⟨"A", "class A \x7b".toList, continuedLiteralUnit, 0⟩) := by
    decide +kernel
  have hcut : Locator.item? ["class".toList] (prepare "final".toList (crlf continuedLiteralUnit)) {} 0 =
      some (.ok ⟨"A", "class A \x7b".toList, "class A \x7b char *s = \"\\\r\n\x7d".toList, 0⟩) := by
    decide +kernel
  have hfirst := (hitems 0).symm.trans hwhole
  have hfirst' := (hitems' 0).symm.trans hcut
  rw [← List.head?_eq_getElem?, List.head?_eq_some_iff] at hfirst hfirst'
  obtain ⟨later, rfl⟩ := hfirst
  obtain ⟨later', rfl⟩ := hfirst'
  obtain ⟨hsame, -⟩ := List.forall₂_cons.mp hsame
  cases hsame with
  | declaration _ _ hbody => exact absurd hbody (by decide +kernel)

end Reflector
