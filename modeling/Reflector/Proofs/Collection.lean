import Reflector.Class.Locator
import Reflector.Generation
import Reflector.Proofs.ReflectionMarks
import Reflector.Proofs.Registry
/-!
# Collecting the selected classes

The records of the selected classes go into the registry one after the other, so that the registry is
the one that their list makes. The other classes leave no trace in it, and a repeated name leaves one
warning for each time it comes again.
-/

namespace Reflector

/-- The names that stand there once more, each as often as it comes again. -/
def repeats (names : List String) : List String :=
  (names.zipIdx.filter fun (name, i) => name ∈ names.take i).map (·.1)

private theorem repeats_concat (names : List String) (name : String) :
    repeats (names ++ [name]) = repeats names ++ (if name ∈ names then [name] else []) := by
  have hold : names.zipIdx.filter (fun (x, i) => x ∈ (names ++ [name]).take i) =
      names.zipIdx.filter (fun (x, i) => x ∈ names.take i) := by
    apply List.filter_congr
    rintro ⟨x, i⟩ hx
    have hi : i < names.length := by simpa using List.snd_lt_of_mem_zipIdx hx
    change decide (x ∈ (names ++ [name]).take i) = decide (x ∈ names.take i)
    rw [List.take_append_of_le_length (Nat.le_of_lt hi)]
  unfold repeats
  rw [List.zipIdx_append, List.filter_append, hold, List.map_append]
  by_cases hm : name ∈ names <;> simp [hm]

def Event.isRepeatWarning (event : Event) : Bool :=
  event.message == "Class declared twice, keeping the last one"

variable {config : Config} {reader : DeclReader} {target : String}

private theorem Event.isRepeatWarning_iff (event : Event) :
    event.isRepeatWarning = true ↔ ∃ name, event = .classRepeated name := by
  constructor
  · intro h
    cases event with
    | classRepeated name => exact ⟨name, rfl⟩
    | unknownKey key suggestion =>
      cases suggestion with
      | none => exact absurd h Bool.false_ne_true
      | some meant =>
        have hchars : ("Unknown key in " ++ Config.fileName ++ " — did you mean '" ++ meant ++
            "'?").toList = "Class declared twice, keeping the last one".toList :=
          congrArg String.toList (beq_iff_eq.mp h)
        rw [String.toList_append, String.toList_append, List.append_assoc] at hchars
        have hhead : some 'U' = some 'C' := congrArg List.head? hchars
        exact absurd hhead (by decide)
    | _ => exact absurd h Bool.false_ne_true
  · rintro ⟨name, rfl⟩
    rfl

private theorem filter_recordEvents (decl : ClassBlock) :
    (decl.recordEvents config reader).filter Event.isRepeatWarning = [] := by
  rw [List.filter_eq_nil_iff]
  intro event he
  simp only [ClassBlock.recordEvents, ClassBlock.emptyNames, List.mem_append, List.mem_map] at he
  rcases he with ⟨x, -, rfl⟩ | ⟨x, -, rfl⟩ <;> simp [Event.isRepeatWarning_iff]

private theorem filter_ending_events (ending : Ending) :
    ending.events.filter Event.isRepeatWarning = [] := by
  cases ending with
  | complete => rfl
  | unbalanced offset =>
    rw [List.filter_eq_nil_iff]
    intro event he
    rw [List.mem_singleton.mp he]
    simp [Event.isRepeatWarning_iff]
  | failed failure => rfl

namespace Collection

private theorem registry_add_of_selected (c : Collection) {decl : ClassBlock}
    (h : decl.isSelected config target = true) :
    (c.add config reader target decl).registry = c.registry.insert (decl.record config reader) := by
  rw [add, if_pos h]
  rfl

private theorem registry_add_of_not_selected (c : Collection) {decl : ClassBlock}
    (h : ¬ decl.isSelected config target = true) :
    (c.add config reader target decl).registry = c.registry := by
  rw [add, if_neg h]

private theorem warnings_add_of_selected (c : Collection) {decl : ClassBlock}
    (h : decl.isSelected config target = true) :
    (c.add config reader target decl).events.filter Event.isRepeatWarning =
      c.events.filter Event.isRepeatWarning ++
        (if decl.name ∈ c.registry.names then [.classRepeated decl.name] else []) := by
  have hold : (c.registry.exchange (decl.record config reader)).1.isSome = true ↔
      decl.name ∈ c.registry.names := by
    rw [Registry.fst_exchange]
    exact Registry.isSome_get?_iff _ _
  simp only [add, if_pos h, List.filter_append, List.filter_cons, filter_recordEvents,
    Event.isRepeatWarning_iff]
  by_cases hm : decl.name ∈ c.registry.names
  · simp [hold.mpr hm, hm, Event.isRepeatWarning_iff]
  · have hnone := mt hold.mp hm
    have hselected : (Event.classSelected decl.name).isRepeatWarning = false := rfl
    have hextracted : ∀ name fields methods component,
        (Event.classExtracted name fields methods component).isRepeatWarning = false :=
      fun _ _ _ _ => rfl
    simp [hnone, hm, hselected, hextracted]

private theorem warnings_add_of_not_selected (c : Collection) {decl : ClassBlock}
    (h : ¬ decl.isSelected config target = true) :
    (c.add config reader target decl).events.filter Event.isRepeatWarning =
      c.events.filter Event.isRepeatWarning := by
  simp [add, if_neg h, Event.isRepeatWarning_iff]

/-- What a run over the classes has collected. -/
theorem foldl_add (config : Config) (reader : DeclReader) (target : String)
    (classes : List ClassBlock) :
    let selected := classes.filter (·.isSelected config target)
    let collection := classes.foldl (Collection.add config reader target) {}
    collection.registry = Registry.ofList (selected.map (·.record config reader)) ∧
      collection.events.filter Event.isRepeatWarning =
        (repeats (selected.map (·.name))).map .classRepeated := by
  induction classes using List.reverseRecOn with
  | nil => exact ⟨rfl, rfl⟩
  | append_singleton classes decl ih =>
    obtain ⟨hregistry, hwarnings⟩ := ih
    simp only [List.foldl_append, List.foldl_cons, List.foldl_nil, List.filter_append]
    generalize classes.foldl (Collection.add config reader target) {} = c at *
    by_cases hsel : decl.isSelected config target = true
    · have hnames : c.registry.names =
          ((classes.filter (·.isSelected config target)).map (·.name)).eraseDups := by
        rw [hregistry, Registry.names_ofList, List.map_map]
        rfl
      constructor
      · rw [registry_add_of_selected c hsel, hregistry, ← Registry.ofList_concat]
        simp [hsel]
      · rw [warnings_add_of_selected c hsel, hwarnings, hnames]
        simp only [hsel, List.mem_eraseDups, List.filter_cons_of_pos, List.filter_nil,
          List.map_append, List.map_singleton, repeats_concat]
        split <;> rfl
    · constructor
      · rw [registry_add_of_not_selected c hsel, hregistry]
        simp [hsel]
      · rw [warnings_add_of_not_selected c hsel, hwarnings]
        simp [hsel]

end Collection

private theorem ClassBlock.isSelected_iff {config : Config} {target : String} {decl : ClassBlock} :
    decl.isSelected config target = true ↔ decl.name = target ∨
      Nonempty (PlacedMark (alternatives (config.reflAttributes.map String.toList)) decl.header) := by
  rw [isSelected, Bool.or_eq_true, beq_iff_eq, markPattern_occursIn_iff]

private theorem error_mem_items {scan : Scan} {failure : Failure} :
    .error failure ∈ scan.items ↔ scan.ending.failure? = some failure := by
  unfold Scan.items Ending.failure?
  cases scan.ending <;> simp [eq_comm]

/-- A class is selected if it goes by the name of the target or if a mark stands in its header. A class
that cannot be read fails the run. Otherwise the registry lists the selected classes by the first class of
each name, with the record of the last one, and each selected class whose name was selected before has
its warning. -/
theorem registerClasses_spec (config : Config) (reader : DeclReader) (target : String)
    (buffer : List Char) :
    let scan := config.scan buffer
    let selected := scan.classes.filter (·.isSelected config target)
    let run := registerClasses config reader target buffer
    (∀ decl, decl ∈ selected ↔ decl ∈ scan.classes ∧ (decl.name = target ∨
      Nonempty (PlacedMark (alternatives (config.reflAttributes.map String.toList)) decl.header))) ∧
    (∀ failure, .error failure ∈ scan.items → run.2 = .error failure) ∧
      ((∀ failure, .error failure ∉ scan.items) → ∃ registry, run.2 = .ok registry ∧
        registry.names = (selected.map (·.name)).eraseDups ∧
        ∀ name, registry.get? name =
          ((selected.filter (·.name == name)).getLast?).map (·.record config reader)) ∧
      run.1.filter Event.isRepeatWarning =
        (repeats (selected.map (·.name))).map .classRepeated := by
  intro scan selected run
  obtain ⟨hregistry, hwarnings⟩ := Collection.foldl_add config reader target scan.classes
  refine ⟨?_, ?_, ?_, ?_⟩
  · intro decl
    rw [List.mem_filter, ClassBlock.isSelected_iff]
  · intro failure hfail
    have hend : (config.scan buffer).ending.failure? = some failure := error_mem_items.mp hfail
    simp [run, registerClasses, hend]
  · intro hok
    have hend : (config.scan buffer).ending.failure? = none := by
      rw [Option.eq_none_iff_forall_ne_some]
      intro failure hfail
      exact hok failure (error_mem_items.mpr hfail)
    refine ⟨_, by simp [run, registerClasses, hend]; rfl, ?_, ?_⟩
    · rw [hregistry, Registry.names_ofList, List.map_map]
      rfl
    · intro name
      rw [hregistry, Registry.get?_ofList, List.filter_map, List.getLast?_map]
      rfl
  · change (_ ++ scan.ending.events).filter Event.isRepeatWarning = _
    rw [List.filter_append, filter_ending_events, List.append_nil]
    exact hwarnings

/-- Two of four classes of one name are marked. The last class is not. -/
def repeatedUnit : List Char :=
  ("class [[refl]] A \x7b [[refl]] int x; \x7d; class A \x7b [[refl]] int y; \x7d; ".toList ++
    "class [[refl]] A \x7b [[refl]] int z; \x7d; class A \x7b [[refl]] int w; \x7d;".toList)

theorem registerClasses_spec_repeatedUnit :
    ((({} : Config).scan repeatedUnit).classes.map (·.isSelected {} "B") =
        [true, false, true, false]) ∧
      ∃ registry, (registerClasses {} tokenReader "B" repeatedUnit).2 = .ok registry ∧
        registry.names = ["A"] ∧ (registry.get? "A").map (·.fields) = some ["z"] ∧
        (registerClasses {} tokenReader "B" repeatedUnit).1.filter Event.isRepeatWarning =
          [.classRepeated "A"] := by
  -- The scan is evaluated once for all that is asked of it.
  obtain ⟨hending, hmarked, hselected, hlast⟩ :
      (({} : Config).scan repeatedUnit).ending.failure? = none ∧
      (({} : Config).scan repeatedUnit).classes.map (·.isSelected {} "B") =
        [true, false, true, false] ∧
      ((({} : Config).scan repeatedUnit).classes.filter (·.isSelected {} "B")).map (·.name) =
        ["A", "A"] ∧
      (((({} : Config).scan repeatedUnit).classes.filter (·.isSelected {} "B")).filter
        (·.name == "A")).getLast?.map (fun decl => (decl.record {} tokenReader).fields) =
          some ["z"] := by
    decide +kernel
  have hitems : ∀ failure, .error failure ∉ (({} : Config).scan repeatedUnit).items := by
    intro failure hfailure
    rw [error_mem_items, hending] at hfailure
    contradiction
  obtain ⟨-, -, hregistered, hwarnings⟩ := registerClasses_spec {} tokenReader "B" repeatedUnit
  obtain ⟨registry, hregistry, hnames, hrecords⟩ := hregistered hitems
  refine ⟨hmarked, registry, hregistry, ?_, ?_, ?_⟩
  · rw [hnames, hselected]
    decide
  · rw [hrecords, Option.map_map]
    exact hlast
  · rw [hwarnings, hselected]
    decide

end Reflector
