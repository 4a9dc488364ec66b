import Reflector.Class.Record
/-!
# The class registry

A map from names to class records that keeps the order in which the names first came in. A record
inserted under a name that is there already takes the place of the old one. An index beside the
records leads from each name to its place, and an insertion keeps the two in agreement.
-/

namespace Reflector

/-- The class records of a run, one for each name, and the places where they stand. -/
structure Registry where
  classes : List ClassRecord := []
  /-- The place of each name among the records. -/
  index : List (String × Nat) := []
  /-- The index leads from a name to a place exactly if the record there has that name. -/
  lookup_index (name : String) (i : Nat) :
    index.lookup name = some i ↔ (classes.map (·.name))[i]? = some name := by simp
deriving DecidableEq, Repr

namespace Registry

instance : EmptyCollection Registry := ⟨{}⟩

def names (r : Registry) : List String :=
  r.classes.map (·.name)

def size (r : Registry) : Nat :=
  r.classes.length

def isEmpty (r : Registry) : Bool :=
  r.classes.isEmpty

def position? (r : Registry) (name : String) : Option Nat :=
  r.index.lookup name

def get? (r : Registry) (name : String) : Option ClassRecord :=
  (r.position? name).bind (r.classes[·]?)

theorem size_eq_length_names (r : Registry) : r.size = r.names.length := by
  simp [size, names]

theorem position?_eq_some_iff {r : Registry} {name : String} {i : Nat} :
    r.position? name = some i ↔ r.names[i]? = some name :=
  r.lookup_index name i

theorem position?_eq_none_iff {r : Registry} {name : String} :
    r.position? name = none ↔ name ∉ r.names := by
  rw [Option.eq_none_iff_forall_ne_some, List.mem_iff_getElem?, not_exists]
  simp only [ne_eq, position?_eq_some_iff]

theorem map_name_set {r : Registry} {record : ClassRecord} {i : Nat}
    (h : r.position? record.name = some i) :
    (r.classes.set i record).map (·.name) = r.names := by
  obtain ⟨hi, hname⟩ := List.getElem?_eq_some_iff.1 (position?_eq_some_iff.1 h)
  rw [List.map_set, ← hname]
  exact List.set_getElem_self hi

/-- A record behind the others is found by its new name, and the others where they were. -/
theorem lookup_index_concat {r : Registry} {record : ClassRecord}
    (h : r.position? record.name = none) (name : String) (i : Nat) :
    (r.index ++ [(record.name, r.size)]).lookup name = some i ↔
      ((r.classes ++ [record]).map (·.name))[i]? = some name := by
  have hlookup : (r.index ++ [(record.name, r.size)]).lookup name =
      if name = record.name then some r.size else r.position? name := by
    rw [List.lookup_append]
    change (r.position? name).or _ = _
    by_cases hname : name = record.name
    · subst hname
      simp [h]
    · simp [hname, List.lookup_cons, beq_eq_false_iff_ne.2 hname]
  have hnames : (r.classes ++ [record]).map (·.name) = r.names ++ [record.name] := by
    simp [names]
  rw [hlookup, hnames, List.getElem?_append, size_eq_length_names]
  by_cases hname : name = record.name
  · subst hname
    have hfree : r.names[i]? ≠ some record.name := by
      simp [← position?_eq_some_iff, h]
    rw [if_pos rfl, Option.some.injEq]
    split
    · simp only [hfree, iff_false]
      omega
    · rw [List.getElem?_singleton]
      split <;> simp <;> omega
  · rw [if_neg hname, position?_eq_some_iff]
    split
    · rfl
    · rename_i hlt
      rw [List.getElem?_eq_none (Nat.le_of_not_lt hlt), List.getElem?_singleton]
      split <;> simp [Ne.symm hname]

/-- Puts a record under its name, in the old place if the name is there and at the end if not, and
answers the record that had the name before. -/
def exchange (r : Registry) (record : ClassRecord) : Option ClassRecord × Registry :=
  match h : r.position? record.name with
  | some i =>
    (r.classes[i]?, ⟨r.classes.set i record, r.index, map_name_set h ▸ r.lookup_index⟩)
  | none =>
    (none, ⟨r.classes ++ [record], r.index ++ [(record.name, r.size)], lookup_index_concat h⟩)

/-- The registry after a record is put under its name. -/
def insert (r : Registry) (record : ClassRecord) : Registry :=
  (r.exchange record).2

def ofList (records : List ClassRecord) : Registry :=
  records.foldl insert ∅

@[simp] theorem names_empty : (∅ : Registry).names = [] := rfl

@[simp] theorem get?_empty (name : String) : (∅ : Registry).get? name = none := rfl

end Registry

end Reflector
