import Mathlib.Data.List.Nodup
import Reflector.Proofs.EmittedLine
import Reflector.Proofs.Extraction
import Reflector.Proofs.MemberListing
/-!
# How often a member is registered

A record of the registry lists no member twice, so that the block of its class has one line for every
field and one for every method. The lines for saving and loading come on top of these: a method with
the name of one of them is registered twice.
-/

namespace Reflector

open Emission

namespace Emission

private theorem ne_of_opening {line line' : String} (h : opening line ≠ opening line') :
    line ≠ line' :=
  mt (congrArg opening) h

private theorem count_map_eq_zero {line : String} {members : List String} {write : String → String}
    (h : ∀ member, opening (write member) ≠ opening line) : (members.map write).count line = 0 := by
  rw [List.count_eq_zero]
  intro hm
  obtain ⟨member, -, hline⟩ := List.mem_map.mp hm
  exact ne_of_opening (h member) hline

private theorem count_propertyLine (record : ClassRecord) (field : String) :
    (registrationBlock record).count (propertyLine record.name field) =
      record.fields.count field := by
  have hend : [" \x7d"].count (propertyLine record.name field) = 0 :=
    List.count_cons_of_ne (ne_of_opening (by simp))
  rw [registrationBlock_eq, List.count_cons_of_ne (ne_of_opening (by simp)),
    List.count_cons_of_ne (ne_of_opening (by simp)), List.count_append, List.count_append,
    List.count_map_of_injective _ _ (propertyLine_injective record.name),
    count_map_eq_zero (by simp), hend]
  rfl

private theorem count_methodLine (record : ClassRecord) (method : String) :
    (registrationBlock record).count (methodLine record.name method) =
      (registeredMethods record).count method := by
  have hend : [" \x7d"].count (methodLine record.name method) = 0 :=
    List.count_cons_of_ne (ne_of_opening (by simp))
  rw [registrationBlock_eq, List.count_cons_of_ne (ne_of_opening (by simp)),
    List.count_cons_of_ne (ne_of_opening (by simp)), List.count_append, List.count_append,
    List.count_map_of_injective _ _ (methodLine_injective record.name),
    count_map_eq_zero (by simp), hend, Nat.zero_add]
  rfl

theorem infix_registrationLines {registry : Registry} {record : ClassRecord}
    (h : record ∈ registry.classes) : registrationBlock record <:+: registrationLines registry := by
  obtain ⟨before, after, hclasses⟩ := List.append_of_mem h
  refine ⟨["void " ++ registerFunction ++ "(Plugin &p)\x7b"] ++ before.flatMap registrationBlock,
    after.flatMap registrationBlock ++ ["\x7d"], ?_⟩
  rw [registrationLines, hclasses]
  simp only [List.flatMap_append, List.flatMap_cons, List.append_assoc]

end Emission

/-- In the block every field has one line, and every method has one. The functions that save and load
have one too, beside that of a method of the same name. -/
structure ClassRecord.RegistersMembers (record : ClassRecord) (block : List String) : Prop where
  properties : ∀ field, block.count (propertyLine record.name field) =
    if field ∈ record.fields then 1 else 0
  methods : ∀ method, block.count (methodLine record.name method) =
    (if method ∈ record.methods then 1 else 0) + if method ∈ ["save", "load"] then 1 else 0
  /-- No other method has more than one line. -/
  repeated : ∀ method, 1 < block.count (methodLine record.name method) ↔
    method ∈ record.methods ∧ method ∈ ["save", "load"]

private theorem registersMembers_of_nodup {record : ClassRecord} (hfields : record.fields.Nodup)
    (hmethods : record.methods.Nodup) : record.RegistersMembers (registrationBlock record) := by
  have hcount : ∀ method, (registrationBlock record).count (methodLine record.name method) =
      (if method ∈ record.methods then 1 else 0) + if method ∈ ["save", "load"] then 1 else 0 := by
    intro method
    rw [count_methodLine, registeredMethods, List.count_append, hmethods.count,
      List.Nodup.count (by decide)]
  refine ⟨fun field => ?_, hcount, fun method => ?_⟩
  · rw [count_propertyLine, hfields.count]
  · rw [hcount]
    by_cases hlisted : method ∈ record.methods <;> by_cases harchive : method ∈ ["save", "load"] <;>
      simp [hlisted, harchive]

/-- No field of a generated class is registered twice, and a method is exactly if it is listed under the
name of the function that saves or of the one that loads. -/
theorem generate_registersMembers {config : Config} {reader : DeclReader} {target source : String}
    {generation : Generation} (h : (generate config reader target source).2 = .ok generation) :
    ∀ record ∈ generation.registry.classes,
      registrationBlock record <:+: registrationLines generation.registry ∧
        record.RegistersMembers (registrationBlock record) := by
  intro record hrecord
  obtain ⟨decl, -, rfl⟩ := exists_of_mem_registry h hrecord
  exact ⟨infix_registrationLines hrecord,
    registersMembers_of_nodup (nodup_eraseDups _) (nodup_eraseDups _)⟩

def markedSave : String :=
  "class [[refl]] A \x7b [[refl]] int x; [[refl]] void save(); \x7d;"

private theorem exists_generation_markedSave :
    ∃ generation, (generate {} tokenReader "" markedSave).2 = .ok generation ∧
      generation.registry.classes.map (·.methods) = [["save"]] :=
  exists_ok_of_map_toOption (by decide +kernel)

theorem generate_registersMembers_markedSave :
    ∃ generation, (generate {} tokenReader "" markedSave).2 = .ok generation ∧
      ∀ record ∈ generation.registry.classes,
        registrationBlock record <:+: registrationLines generation.registry ∧
          record.RegistersMembers (registrationBlock record) := by
  obtain ⟨generation, hrun, -⟩ := exists_generation_markedSave
  exact ⟨generation, hrun, generate_registersMembers hrun⟩

theorem exists_method_registered_twice :
    ∃ generation, (generate {} tokenReader "" markedSave).2 = .ok generation ∧
      ∃ record ∈ generation.registry.classes,
        (registrationBlock record).count (methodLine record.name "save") = 2 := by
  obtain ⟨generation, hrun, hmethods⟩ := exists_generation_markedSave
  obtain ⟨record, hclasses, hrecord⟩ := List.map_eq_singleton_iff.mp hmethods
  refine ⟨generation, hrun, record, by simp [hclasses], ?_⟩
  rw [count_methodLine, registeredMethods, hrecord]
  rfl

end Reflector
