import Reflector.Proofs.Collection
import Reflector.Proofs.Scan
import Reflector.Proofs.UnitWords

namespace Reflector

open Text Source

private theorem namedBases_eq_nil {macroName cs : List Char} (h : ¬ macroName <:+: cs) :
    namedBases macroName cs = [] := by
  unfold namedBases
  split
  · rfl
  · rename_i o ho
    obtain ⟨hcs, hmatch, -⟩ := Pattern.find?_eq_some ho
    obtain ⟨⟨blanks, arguments, rest⟩, hclause, -⟩ := Option.map_eq_some_iff.mp hmatch
    have htext := implsClause?_sound hclause
    have hin : macroName <:+: cs := by
      rw [hcs, htext]
      exact ⟨o.before, blanks ++ '(' :: arguments ++ ')' :: rest, by simp⟩
    exact absurd hin h

namespace ClassDescription

private theorem record_block (decl : ClassDescription) (offset : Nat) :
    (decl.block offset).record {} tokenReader = decl.record := by
  have hsource : IsHarmless decl.source := by
    have happend := decl.isHarmless_source_append isHarmless_nil
    rwa [List.append_nil] at happend
  have hmarker : ∀ marker ∈ ["AKR_DECL_COMP", "AKR_IMPLS"], ¬ marker.toList <:+: decl.body := by
    intro marker hm hin
    apply hsource.not_infix hm
    rw [source_eq]
    exact List.infix_append_of_infix_left hin
  have hcomponent : (decl.block offset).isComponent {} = false := by
    rw [ClassBlock.isComponent, List.any_eq_false]
    intro marker hm
    rw [hasInfix_iff]
    exact hmarker marker hm
  have hbases : namedBases ({} : Config).implsMacro.toList (decl.block offset).body = [] :=
    namedBases_eq_nil (hmarker "AKR_IMPLS" (by decide))
  have hfields := decl.memberNames_block offset .field
  have hmethods := decl.memberNames_block offset .method
  rw [defaultMarks] at hfields hmethods
  simp only [ClassBlock.record, hcomponent, hbases, hfields, hmethods, record]
  rfl

end ClassDescription

/-- The declarations as a scan finds them in a unit that starts at an offset. -/
def unitBlocks (offset : Nat) : List ClassDescription → List ClassBlock
  | [] => []
  | decl :: classes =>
    decl.block offset :: unitBlocks (offset + byteLength decl.source) classes

def unitOf (classes : List ClassDescription) : WellFormedUnit defaultKeywords where
  gap := .ofNotInfix [] (by decide) (by simp)
  classes := classes.map fun decl => (decl.wellFormed, ClassDescription.lineGap)

private theorem text_unitOf (classes : List ClassDescription) :
    (unitOf classes).text = unitText classes := by
  change [] ++ WellFormedUnit.classesText (unitOf classes).classes = _
  rw [List.nil_append, WellFormedUnit.classesText, unitOf, List.flatMap_map]
  simp only [ClassDescription.source_wellFormed]
  rfl

private theorem blocksFrom_unitOf (offset : Nat) (classes : List ClassDescription) :
    WellFormedUnit.blocksFrom offset (unitOf classes).classes = unitBlocks offset classes := by
  induction classes generalizing offset with
  | nil => rfl
  | cons decl classes ih =>
    change WellFormedUnit.blocksFrom offset
      ((decl.wellFormed, ClassDescription.lineGap) :: (unitOf classes).classes) = _
    rw [WellFormedUnit.blocksFrom, ih, decl.source_wellFormed, decl.header_wellFormed,
      decl.body_wellFormed]
    rfl

private theorem scan_unitText (classes : List ClassDescription) :
    ({} : Config).scan (unitText classes) = ⟨unitBlocks 0 classes, .complete⟩ := by
  have hid : ∀ keyword ∈ defaultKeywords, isIdentifier keyword = true := by decide
  have hscan := WellFormedUnit.scans (by decide) hid (unitOf classes).classes (unitOf classes).gap []
  rw [blocksFrom_unitOf] at hscan
  rw [← text_unitOf]
  exact hscan.scanClasses_eq

private theorem filter_unitBlocks (offset : Nat) (target : String) (classes : List ClassDescription) :
    (unitBlocks offset classes).filter (·.isSelected {} target) = unitBlocks offset classes := by
  induction classes generalizing offset with
  | nil => rfl
  | cons decl classes ih =>
    rw [unitBlocks, List.filter_cons_of_pos (decl.isSelected_block offset target), ih]

private theorem map_record_unitBlocks (offset : Nat) (classes : List ClassDescription) :
    (unitBlocks offset classes).map (·.record {} tokenReader) =
      classes.map ClassDescription.record := by
  induction classes generalizing offset with
  | nil => rfl
  | cons decl classes ih => rw [unitBlocks, List.map_cons, decl.record_block, ih, List.map_cons]

/-- A unit of described classes is recovered from its source text whatever the target is: the
registry lists the names by their first class, each with the record of its last one. -/
theorem generate_unitText (classes : List ClassDescription) (target : String) :
    ∃ generation,
      (generate {} tokenReader target (String.ofList (unitText classes))).2 = .ok generation ∧
        generation.registry.names = (classes.map (·.name.text)).eraseDups ∧
        ∀ name, generation.registry.get? name =
          ((classes.filter (·.name.text == name)).getLast?).map ClassDescription.record := by
  have hbuffer : prepare ({} : Config).stripKeyword.toList
      (String.ofList (unitText classes)).toList = unitText classes := by
    have htext : (String.ofList (unitText classes)).toList = unitText classes :=
      String.toList_ofList
    rw [htext]
    exact prepare_unitText classes
  have hregistry := (Collection.foldl_add {} tokenReader target (unitBlocks 0 classes)).1
  rw [filter_unitBlocks, map_record_unitBlocks] at hregistry
  refine ⟨⟨(Registry.ofList (classes.map ClassDescription.record)).render target,
    Registry.ofList (classes.map ClassDescription.record)⟩, ?_, ?_, ?_⟩
  · rw [generate, hbuffer, registerClasses, scan_unitText]
    simp only [Ending.failure?, Except.map, hregistry]
  · rw [Registry.names_ofList, List.map_map]
    rfl
  · intro name
    rw [Registry.get?_ofList, List.filter_map, List.getLast?_map]
    rfl

/-- A unit that declares one class twice and another one, without members, in between. -/
def pointUnit : List ClassDescription :=
  let point : Identifier := ⟨"Point", by decide, by decide, by decide, by decide +kernel⟩
  let shape : Identifier := ⟨"Shape", by decide, by decide, by decide, by decide +kernel⟩
  let long : Identifier := ⟨"long", by decide, by decide, by decide, by decide +kernel⟩
  let int : Identifier := ⟨"int", by decide, by decide, by decide, by decide +kernel⟩
  let x : Identifier := ⟨"x", by decide, by decide, by decide, by decide +kernel⟩
  let size : Identifier := ⟨"size", by decide, by decide, by decide, by decide +kernel⟩
  [⟨point, by decide, [⟨.field, ⟨int, [], none⟩, size⟩]⟩,
    ⟨shape, by decide, []⟩,
    ⟨point, by decide, [⟨.method, ⟨long, [int], some .pointer⟩, size⟩,
      ⟨.field, ⟨int, [], some .reference⟩, x⟩, ⟨.method, ⟨int, [], none⟩, size⟩]⟩]

example : unitText pointUnit =
    ("class [[refl]] Point \x7b [[refl]] int size; \x7d;\n" ++
      "class [[refl]] Shape \x7b \x7d;\n" ++
      "class [[refl]] Point \x7b [[refl]] long int * size(); [[refl]] int & x; " ++
      "[[refl]] int size(); \x7d;\n").toList := by
  decide +kernel

/-- The second declaration of the point takes the place of the first. -/
theorem generate_pointUnit :
    ∃ generation,
      (generate {} tokenReader "Point" (String.ofList (unitText pointUnit))).2 = .ok generation ∧
        generation.registry.names = ["Point", "Shape"] ∧
        generation.registry.get? "Point" =
          some { name := "Point", fields := ["x"], methods := ["size"] } := by
  obtain ⟨generation, hok, hnames, hget⟩ := generate_unitText pointUnit "Point"
  exact ⟨generation, hok, hnames.trans (by decide), (hget "Point").trans (by decide)⟩

end Reflector
