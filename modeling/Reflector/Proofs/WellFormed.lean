import Reflector.Proofs.Concatenation
import Reflector.Proofs.Identifier
/-!
# Scanning a well-formed unit

No header begins in a gap, and the one behind the gap is read as it is written, with its own block. A
scan of a unit therefore finds the classes of the unit, each where it stands.
-/

namespace Reflector

open Source Text

variable {keywords : List (List Char)}

theorem isWord_space : isWord ' ' = false := by
  decide +kernel

theorem isWord_lineFeed : isWord '\n' = false := by
  decide +kernel

namespace ClassGap

private theorem match?_eq_none (gap : ClassGap keywords) (hne : keywords ≠ [])
    (hid : ∀ keyword ∈ keywords, isIdentifier keyword = true) {a b : List Char}
    (hab : gap.text = a ++ b) (hb : b ≠ []) (cs : List Char) :
    (headerPattern keywords).match? (a.getLast?.or none) (b ++ cs) = none := by
  rw [Option.eq_none_iff_forall_ne_some]
  rintro ⟨piece, rest⟩ hfound
  obtain ⟨keyword, hmem, hread⟩ := List.exists_of_findSome?_eq_some hfound
  have hnames : alternatives keywords = keywords := if_neg hne
  rw [hnames] at hmem
  obtain ⟨run, -, -, htext, hbegin, hend⟩ := headerOf?_eq_some_iff.mp hread
  -- The last character of the gap is in `b` and in no keyword.
  have hlast : ¬ ∀ c ∈ b, isWord c = true := by
    intro hwords
    have hends : isWord (b.getLast hb) = false := by
      apply gap.ends
      rw [hab, List.getLast?_append_of_ne_nil a hb, List.getLast?_eq_some_getLast hb]
      rfl
    rw [hwords _ (List.getLast_mem hb)] at hends
    contradiction
  have hwords := isWord_of_mem_isIdentifier (hid keyword hmem)
  -- The keyword reaches past the end of the gap, or it stands in it with its right neighbour.
  rcases List.append_eq_append_iff.mp htext with ⟨e, rfl, -⟩ | ⟨e, rfl, hrest⟩
  · exact hlast fun c hc => hwords c (List.mem_append_left _ hc)
  · cases e with
    | nil => exact hlast (by simpa using hwords)
    | cons d e =>
      have hkeyword : keyword ≠ [] := by
        rintro rfl
        exact absurd (hid [] hmem) (by decide)
      have hneighbour : keyword.getLast?.or (a.getLast?.or none) = keyword.getLast? := by
        rw [List.getLast?_eq_some_getLast hkeyword]
        rfl
      have hfirst : (keyword ++ d :: e ++ cs).head? = keyword.head? := by
        rw [List.append_assoc, List.head?_append_of_ne_nil _ hkeyword]
      have hbehind : (run ++ '{' :: rest).head? = (d :: e).head? := by
        rw [hrest]
        rfl
      rw [Option.or_none, hfirst] at hbegin
      rw [hneighbour, hbehind] at hend
      have hfree := gap.no_keyword a keyword (d :: e) (by rw [hab, List.append_assoc]) hmem hbegin
      rw [hend] at hfree
      contradiction

private theorem find?_eq_none (gap : ClassGap keywords) (hne : keywords ≠ [])
    (hid : ∀ keyword ∈ keywords, isIdentifier keyword = true) :
    (headerPattern keywords).find? none gap.text = none := by
  have hsearch := Pattern.find?_append_of_forall none [] fun a b hab hb =>
    gap.match?_eq_none hne hid hab hb []
  rwa [List.append_nil, Pattern.find?_nil] at hsearch

end ClassGap

namespace WellFormedClass

variable (decl : WellFormedClass keywords)

private theorem match?_header (hid : ∀ keyword ∈ keywords, isIdentifier keyword = true)
    {left : Option Char} (hleft : ∀ c ∈ left, isWord c = false) (cs : List Char) :
    (headerPattern keywords).match? left (decl.header ++ cs) = some (decl.header, cs) := by
  have hk : ∀ keyword ∈ keywords, '{' ∉ keyword := by
    intro keyword hm hbrace
    exact absurd (isNameChar_of_mem_isIdentifier (hid keyword hm) '{' hbrace) (by decide)
  have hwords := isWord_of_mem_isIdentifier (hid _ decl.keyword_mem)
  have hne : decl.keyword ≠ [] := by
    obtain ⟨c, word, hword, -⟩ := isIdentifier_iff.mp (hid _ decl.keyword_mem)
    rw [hword]
    exact List.cons_ne_nil c word
  have hrun : ∀ c ∈ decl.tail, isHeaderChar c = true := by
    intro c hc
    have hplain := decl.tail_plain c hc
    simp only [List.mem_cons, not_or] at hplain
    simp [isHeaderChar, hplain]
  have hbegin : isWordBoundary left (decl.keyword ++ (decl.tail ++ '{' :: cs)).head? = true := by
    rw [List.head?_append_of_ne_nil _ hne, List.head?_eq_some_head hne]
    exact isWordBoundary_of_isWord (hwords _ (List.head_mem hne)) hleft
  have hend : isWordBoundary (decl.keyword.getLast?.or left) (decl.tail ++ '{' :: cs).head? =
      true := by
    obtain ⟨d, hd, hbreak⟩ := decl.tail_begins
    have hhead : (decl.tail ++ '{' :: cs).head? = some d := by
      rw [List.head?_append, hd]
      rfl
    rw [hhead, List.getLast?_eq_some_getLast hne, isWordBoundary_comm]
    exact isWordBoundary_of_isWord (hwords _ (List.getLast_mem hne)) (by simpa using hbreak)
  have hread := headerPattern_append hk decl.keyword_mem cs hrun hbegin hend
  simpa [header] using hread

private theorem isFlat_of_mem_front (hid : ∀ keyword ∈ keywords, isIdentifier keyword = true) :
    ∀ c ∈ decl.keyword ++ decl.tail, isFlat c = true := by
  intro c hc
  rcases List.mem_append.mp hc with hc | hc
  · have hname := isNameChar_of_mem_isIdentifier (hid _ decl.keyword_mem) c hc
    have hother : ∀ d, isNameChar d = false → c ≠ d := fun d => ne_of_class hname
    simp (disch := decide) [isFlat, hother]
  · have hplain := decl.tail_plain c hc
    simp only [List.mem_cons, not_or] at hplain
    simp [isFlat, hplain]

private theorem splitBlock_body (hid : ∀ keyword ∈ keywords, isIdentifier keyword = true)
    (lead : Lead)
    (cs : List Char) : splitBlock lead (decl.body ++ cs) = some (decl.body, cs) := by
  have hsplit := splitBlock_of_nestedText lead cs (decl.isFlat_of_mem_front hid) decl.nested
  simpa [body, header] using hsplit

end WellFormedClass

namespace WellFormedUnit

/-- A scan finds the classes of a unit. -/
theorem scans (hne : keywords ≠ []) (hid : ∀ keyword ∈ keywords, isIdentifier keyword = true)
    (classes : List (WellFormedClass keywords × ClassGap keywords)) (gap : ClassGap keywords)
    (before : List Char) :
    Scans keywords before (gap.text ++ classesText classes)
      ⟨blocksFrom (byteLength (before ++ gap.text)) classes, .complete⟩ := by
  induction classes generalizing gap before with
  | nil =>
    have hnone := gap.find?_eq_none hne hid
    rw [classesText, List.flatMap_nil, List.append_nil]
    exact .complete hnone
  | cons first classes ih =>
    obtain ⟨decl, next⟩ := first
    have hleft : ∀ c ∈ gap.text.getLast?.or none, isWord c = false := by
      rw [Option.or_none]
      exact gap.ends
    have hbody : decl.body ++ (next.text ++ classesText classes) =
        decl.header ++ (decl.inside ++ '}' :: (next.text ++ classesText classes)) := by
      simp [WellFormedClass.body]
    have hfind : (headerPattern keywords).find? none
        (gap.text ++ (decl.body ++ (next.text ++ classesText classes))) =
          some ⟨gap.text, decl.header,
            decl.inside ++ '}' :: (next.text ++ classesText classes)⟩ := by
      rw [Pattern.find?_append_of_forall none _ fun a b hab hb =>
        gap.match?_eq_none hne hid hab hb _, hbody,
        Pattern.find?_of_match (decl.match?_header hid hleft _)]
      simp
    have hsplit := decl.splitBlock_body hid (Lead.none.after gap.text)
      (next.text ++ classesText classes)
    rw [hbody] at hsplit
    have hlater := ih next (before ++ gap.text ++ decl.body)
    have hoffset : byteLength (before ++ gap.text ++ decl.body ++ next.text) =
        byteLength (before ++ gap.text) + byteLength (decl.body ++ next.text) := by
      rw [← byteLength_append, List.append_assoc]
    rw [hoffset] at hlater
    have htext : classesText ((decl, next) :: classes) =
        decl.body ++ (next.text ++ classesText classes) := by
      simp [classesText]
    rw [htext]
    exact .found hfind hsplit decl.headerName_eq hlater

end WellFormedUnit

/-- The locator yields the classes of a well-formed unit and nothing else. -/
theorem locator_wellFormedUnit (hne : keywords ≠ [])
    (hid : ∀ keyword ∈ keywords, isIdentifier keyword = true) (unit : WellFormedUnit keywords) :
    Locator.Yields keywords unit.text (unit.blocks.map .ok) := by
  have hscan : Scans keywords [] unit.text ⟨unit.blocks, .complete⟩ :=
    WellFormedUnit.scans hne hid unit.classes unit.gap []
  simpa [Scan.items] using Locator.yields_of_scans hscan

private theorem headerName_nestedUnit :
    headerName ["class".toList] ("class".toList ++ [' ', 'A', ' '] ++ ['{']) = .ok "A" := by
  decide +kernel

/-- A class with braces in its literals and a block in its block, between two gaps with braces. -/
def nestedUnit : WellFormedUnit ["class".toList] where
  gap := .ofNotInfix "int f() \x7b \x7d ".toList (by decide +kernel)
    fun _ hc => Option.some.inj hc ▸ isWord_space
  classes := [
    ({ name := "A"
       keyword := "class".toList
       tail := [' ', 'A', ' ']
       inside := '"' :: ['\x7d'] ++ '"' ::
         ('\x7b' :: ('\'' :: ['\\', '\''] ++ '\'' :: []) ++ '\x7d' :: [])
       keyword_mem := List.mem_singleton_self _
       tail_begins := ⟨' ', rfl, isWord_space⟩
       tail_plain := by simp
       headerName_eq := headerName_nestedUnit
       nested := .string (.char (by decide) (by decide) (by decide) .nil)
         (.block (.char (by decide) (.escape '\'' .nil) .nil) .nil) },
      .ofNotInfix "; \x7d ".toList (by decide +kernel)
        fun _ hc => Option.some.inj hc ▸ isWord_space)]

theorem locator_nestedUnit :
    ["class".toList] ≠ [] ∧ (∀ keyword ∈ ["class".toList], isIdentifier keyword = true) ∧
      nestedUnit.text = "int f() \x7b \x7d class A \x7b\"\x7d\"\x7b'\\''\x7d\x7d; \x7d ".toList ∧
      Locator.Yields ["class".toList] nestedUnit.text (nestedUnit.blocks.map .ok) := by
  have hne : ["class".toList] ≠ [] := by decide
  have hid : ∀ keyword ∈ ["class".toList], isIdentifier keyword = true := by decide
  exact ⟨hne, hid, by decide +kernel, locator_wellFormedUnit hne hid nestedUnit⟩

end Reflector
