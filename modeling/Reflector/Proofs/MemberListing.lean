import Reflector.Proofs.Collection
import Reflector.Proofs.MemberName

namespace Reflector

open Text Source

theorem exists_of_mem_registry {config : Config} {reader : DeclReader} {target source : String}
    {generation : Generation} (h : (generate config reader target source).2 = .ok generation)
    {record : ClassRecord} (hr : record ∈ generation.registry.classes) :
    ∃ decl ∈ (config.scan (prepare config.stripKeyword.toList source.toList)).classes,
      record = decl.record config reader := by
  simp only [generate, registerClasses] at h
  generalize config.scan (prepare config.stripKeyword.toList source.toList) = scan at *
  cases hend : scan.ending.failure? with
  | some failure => simp [hend, Except.map] at h
  | none =>
    simp only [hend, Except.map, Except.ok.injEq] at h
    rw [← h, (Collection.foldl_add config reader target scan.classes).1] at hr
    obtain ⟨decl, hdecl, rfl⟩ := List.mem_map.mp (Registry.mem_of_mem_classes_ofList hr)
    exact ⟨decl, (List.mem_filter.mp hdecl).1, rfl⟩

/-- The record lists the members of the class: an entry is a declared name and what a trim leaves of
the gap behind it, so that it is a qualified identifier just where that gap is white space. -/
structure ClassRecord.ListsMembers (markNames : List (List Char)) (decl : ClassBlock)
    (record : ClassRecord) : Prop where
  name : record.name = decl.name
  fields : ∀ entry, entry ∈ record.fields ↔
    ∃ name gap, decl.Declares markNames .field name gap ∧
      entry.toList = name ++ trimEnd isGapChar gap
  methods : ∀ entry, entry ∈ record.methods ↔
    (record.isComponent = true ∧ entry = "commit") ∨
      ∃ name gap, decl.Declares markNames .method name gap ∧
        entry.toList = name ++ trimEnd isGapChar gap
  qualified : ∀ kind name gap, decl.Declares markNames kind name gap → IsQualifiedName name ∧
    (IsQualifiedName (name ++ trimEnd isGapChar gap) ↔ ∀ c ∈ gap, isGapChar c = true)

private theorem ClassBlock.listsMembers_record (config : Config) (decl : ClassBlock) :
    (decl.record config tokenReader).ListsMembers (config.reflAttributes.map String.toList) decl where
  name := rfl
  fields := by
    intro entry
    rw [← mem_memberNames]
    exact List.mem_eraseDups
  methods := by
    intro entry
    rw [← mem_memberNames]
    simp only [record, List.mem_eraseDups]
    by_cases hc : decl.isComponent config = true
    · simp [hc]
    · simp [hc]
  qualified _ _ _ := Declares.isQualifiedName

/-- Every record of a generation lists the members of one of the classes found. -/
theorem generate_listsMembers {config : Config} {target source : String} {generation : Generation}
    (h : (generate config tokenReader target source).2 = .ok generation) :
    ∀ record ∈ generation.registry.classes,
      ∃ decl ∈ (config.scan (prepare config.stripKeyword.toList source.toList)).classes,
        record.ListsMembers (config.reflAttributes.map String.toList) decl := by
  intro record hr
  obtain ⟨decl, hdecl, rfl⟩ := exists_of_mem_registry h hr
  exact ⟨decl, hdecl, decl.listsMembers_record config⟩

theorem exists_ok_of_map_toOption {ε α β : Type} {result : Except ε α} {f : α → β} {y : β}
    (h : result.toOption.map f = some y) : ∃ x, result = .ok x ∧ f x = y := by
  cases result with
  | error e => simp [Except.toOption] at h
  | ok x => exact ⟨x, rfl, Option.some.inj h⟩

/-- A field with an attribute between its name and the semicolon. -/
def attributeBehindName : String :=
  "class [[refl]] A \x7b [[refl]] int x [[maybe_unused]]; \x7d;"

private theorem exists_generation_attributeBehindName :
    ∃ generation, (generate {} tokenReader "" attributeBehindName).2 = .ok generation ∧
      generation.registry.classes.map (·.fields) = [["x [[maybe_unused]]"]] :=
  exists_ok_of_map_toOption (by decide +kernel)

theorem generate_listsMembers_attributeBehindName :
    ∃ generation, (generate {} tokenReader "" attributeBehindName).2 = .ok generation ∧
      ∀ record ∈ generation.registry.classes,
        ∃ decl ∈ (({} : Config).scan
            (prepare "final".toList attributeBehindName.toList)).classes,
          record.ListsMembers ["refl".toList, "akari::refl".toList] decl := by
  obtain ⟨generation, hrun, -⟩ := exists_generation_attributeBehindName
  exact ⟨generation, hrun, generate_listsMembers hrun⟩

theorem exists_field_not_isQualifiedName :
    ∃ generation, (generate {} tokenReader "" attributeBehindName).2 = .ok generation ∧
      ∃ record ∈ generation.registry.classes, ∃ entry ∈ record.fields,
        ¬ IsQualifiedName entry.toList := by
  obtain ⟨generation, hrun, hfields⟩ := exists_generation_attributeBehindName
  obtain ⟨record, hclasses, hrecord⟩ := List.map_eq_singleton_iff.mp hfields
  refine ⟨generation, hrun, record, by simp [hclasses], _, by simp [hrecord]; rfl, ?_⟩
  intro hname
  exact hname.bracket_not_mem (by decide)

end Reflector
