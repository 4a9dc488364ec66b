import Mathlib.Data.Finset.Card
import Mathlib.Data.List.Induction
import Reflector.Class.Registry
/-!
# The registry as a map

A lookup answers the first record of that name, and an insertion splits the registry at the place of
the name. From these two facts a sequence of insertions lists each name once, in the order in which
the names first came in, under the record that came in last.
-/

namespace Reflector

private theorem eraseDups_concat (names : List String) (name : String) :
    (names ++ [name]).eraseDups =
      if name ∈ names then names.eraseDups else names.eraseDups ++ [name] := by
  rw [List.eraseDups_append]
  by_cases hm : name ∈ names
  · have hr : [name].removeAll names = [] := by
      rw [List.removeAll, List.filter_cons_of_neg (by simpa using hm), List.filter_nil]
    rw [hr, if_pos hm, List.eraseDups_nil, List.append_nil]
  · have hr : [name].removeAll names = [name] := by
      rw [List.removeAll, List.filter_cons_of_pos (by simpa using hm), List.filter_nil]
    rw [hr, if_neg hm]
    rfl

namespace Registry

private theorem classes_eq_of_position? {r : Registry} {name : String} {i : Nat}
    (h : r.position? name = some i) :
    ∃ before record after, r.classes = before ++ record :: after ∧ before.length = i ∧
      record.name = name ∧ ∀ x ∈ before, x.name ≠ name := by
  obtain ⟨hi, hname⟩ := List.getElem?_eq_some_iff.mp (position?_eq_some_iff.mp h)
  have hlt : i < r.classes.length := by simpa [names] using hi
  refine ⟨r.classes.take i, r.classes[i], r.classes.drop (i + 1), ?_, ?_, ?_, ?_⟩
  · rw [List.getElem_cons_drop, List.take_append_drop]
  · rw [List.length_take, Nat.min_eq_left (Nat.le_of_lt hlt)]
  · simpa [names] using hname
  · intro x hx hxn
    obtain ⟨j, hj, rfl⟩ := List.mem_take_iff_getElem.mp hx
    have hji : j < i := Nat.lt_of_lt_of_le hj (Nat.min_le_left _ _)
    have hjlt : j < r.classes.length := Nat.lt_trans hji hlt
    have hfirst : r.position? name = some j := by
      rw [position?_eq_some_iff]
      simp [names, hjlt, hxn]
    rw [h, Option.some.injEq] at hfirst
    omega

private theorem get?_eq_find? (r : Registry) (name : String) :
    r.get? name = r.classes.find? fun record => record.name == name := by
  cases hp : r.position? name with
  | none =>
    have hn : ∀ x ∈ r.classes, x.name ≠ name := by
      intro x hx hxn
      exact position?_eq_none_iff.mp hp (List.mem_map.mpr ⟨x, hx, hxn⟩)
    have hf : r.classes.find? (fun record => record.name == name) = none := by
      simpa [List.find?_eq_none] using hn
    rw [get?, hp, hf]
    rfl
  | some i =>
    obtain ⟨before, record, after, hc, rfl, hname, hb⟩ := classes_eq_of_position? hp
    have hf : before.find? (fun record => record.name == name) = none := by
      simpa [List.find?_eq_none] using hb
    simp [get?, hp, hc, hf, hname]

theorem isSome_get?_iff (r : Registry) (name : String) :
    (r.get? name).isSome = true ↔ name ∈ r.names := by
  simp [get?_eq_find?, names]

theorem fst_exchange (r : Registry) (record : ClassRecord) :
    (r.exchange record).1 = r.get? record.name := by
  unfold exchange get?
  split
  · rename_i i hp
    simp only [hp, Option.bind_some]
  · rename_i hp
    simp only [hp, Option.bind_none]

private theorem classes_insert (r : Registry) (record : ClassRecord) :
    (r.insert record).classes =
      match r.position? record.name with
      | some i => r.classes.set i record
      | none => r.classes ++ [record] := by
  unfold insert exchange
  split
  · rename_i i hp
    simp only [hp]
  · rename_i hp
    simp only [hp]

private theorem names_insert (r : Registry) (record : ClassRecord) :
    (r.insert record).names =
      if record.name ∈ r.names then r.names else r.names ++ [record.name] := by
  rw [names, classes_insert]
  cases hp : r.position? record.name with
  | none =>
    rw [if_neg (position?_eq_none_iff.mp hp), List.map_append, List.map_singleton, names]
  | some i =>
    have hm : record.name ∈ r.names := List.mem_of_getElem? (position?_eq_some_iff.mp hp)
    rw [if_pos hm, map_name_set hp]

private theorem get?_insert (r : Registry) (record : ClassRecord) (name : String) :
    (r.insert record).get? name = if record.name = name then some record else r.get? name := by
  rw [get?_eq_find?, get?_eq_find?, classes_insert]
  cases hp : r.position? record.name with
  | none =>
    have hn : ∀ x ∈ r.classes, x.name ≠ record.name := by
      intro x hx hxn
      exact position?_eq_none_iff.mp hp (List.mem_map.mpr ⟨x, hx, hxn⟩)
    by_cases hname : record.name = name
    · subst hname
      have hf : r.classes.find? (fun x => x.name == record.name) = none := by
        simpa [List.find?_eq_none] using hn
      simp [hf]
    · simp [List.find?_append, hname]
  | some i =>
    obtain ⟨before, old, after, hc, rfl, hold, hb⟩ := classes_eq_of_position? hp
    by_cases hname : record.name = name
    · subst hname
      have hf : before.find? (fun x => x.name == record.name) = none := by
        simpa [List.find?_eq_none] using hb
      simp [hc, hf]
    · simp [hc, List.find?_append, hold, hname]

/-- An insertion moves no name that was there before. -/
theorem position?_insert (r : Registry) (record : ClassRecord) {name : String}
    (h : name ≠ record.name ∨ name ∈ r.names) :
    (r.insert record).position? name = r.position? name := by
  have hplaces : ∀ i : Nat, (r.insert record).names[i]? = some name ↔ r.names[i]? = some name := by
    intro i
    rw [names_insert]
    split
    · rfl
    · rename_i hnew
      have hname : record.name ≠ name := by
        rintro rfl
        exact h.elim (fun hne => hne rfl) hnew
      rw [List.getElem?_append]
      split
      · rfl
      · rename_i hlt
        rw [List.getElem?_eq_none (Nat.le_of_not_lt hlt), List.getElem?_singleton]
        split <;> simp [hname]
  apply Option.ext
  intro i
  rw [position?_eq_some_iff, position?_eq_some_iff, hplaces]

private theorem nodup_names (r : Registry) : r.names.Nodup := by
  rw [List.nodup_iff_getElem?_ne_getElem?]
  intro i j hij hj heq
  have hname := List.getElem?_eq_getElem hj
  have hi := position?_eq_some_iff.mpr (heq.trans hname)
  rw [position?_eq_some_iff.mpr hname, Option.some.injEq] at hi
  omega

theorem ofList_concat (records : List ClassRecord) (record : ClassRecord) :
    ofList (records ++ [record]) = (ofList records).insert record := by
  simp [ofList]

private theorem mem_classes_of_mem_insert {r : Registry} {old new : ClassRecord}
    (h : old ∈ (r.insert new).classes) : old ∈ r.classes ∨ old = new := by
  rw [classes_insert] at h
  cases hp : r.position? new.name with
  | none => simpa [hp] using h
  | some i =>
    rw [hp] at h
    exact List.mem_or_eq_of_mem_set h

theorem mem_of_mem_classes_ofList {records : List ClassRecord} {record : ClassRecord}
    (h : record ∈ (ofList records).classes) : record ∈ records := by
  induction records using List.reverseRecOn with
  | nil => exact h
  | append_singleton records last ih =>
    rw [ofList_concat] at h
    rcases mem_classes_of_mem_insert h with hold | rfl
    · exact List.mem_append_left _ (ih hold)
    · exact List.mem_append_right _ (List.mem_singleton_self _)

theorem names_ofList (records : List ClassRecord) :
    (ofList records).names = (records.map (·.name)).eraseDups := by
  induction records using List.reverseRecOn with
  | nil => rfl
  | append_singleton records record ih =>
    rw [ofList_concat, names_insert, ih, List.map_append, List.map_singleton, eraseDups_concat]
    simp only [List.mem_eraseDups]

theorem get?_ofList (records : List ClassRecord) (name : String) :
    (ofList records).get? name = (records.filter (·.name == name)).getLast? := by
  induction records using List.reverseRecOn with
  | nil => rfl
  | append_singleton records record ih =>
    rw [ofList_concat, get?_insert, ih, List.filter_append]
    by_cases hname : record.name = name
    · simp [hname]
    · simp [hname]

/-- After any sequence of insertions the registry is a map from the names to the records that came in
last under them, in the order in which the names came in first, and its index knows the place of each.
The next insertion answers the record that was there under its name and leaves the others alone. -/
theorem ofList_isInsertionOrdered (records : List ClassRecord) :
    let r := ofList records
    r.names.Nodup ∧
      (∀ name i, r.index.lookup name = some i ↔ (r.classes[i]?).map (·.name) = some name) ∧
      (∀ name, r.get? name = (records.filter (·.name == name)).getLast?) ∧
      r.names = (records.map (·.name)).eraseDups ∧
      r.size = (records.map (·.name)).toFinset.card ∧
      ∀ record, (r.exchange record).1 = r.get? record.name ∧
        (r.insert record).get? record.name = some record ∧
        ∀ name, name ≠ record.name → (r.insert record).get? name = r.get? name ∧
          (r.insert record).position? name = r.position? name := by
  intro r
  refine ⟨nodup_names r, ?_, get?_ofList records, names_ofList records, ?_, ?_⟩
  · intro name i
    rw [r.lookup_index, List.getElem?_map]
  · have hset : r.names.toFinset = (records.map (·.name)).toFinset := by
      ext name
      rw [names_ofList, List.mem_toFinset, List.mem_toFinset, List.mem_eraseDups]
    rw [size_eq_length_names, ← List.toFinset_card_of_nodup (nodup_names r), hset]
  · intro record
    refine ⟨fst_exchange r record, ?_, ?_⟩
    · rw [get?_insert, if_pos rfl]
    · intro name hname
      exact ⟨by rw [get?_insert, if_neg (Ne.symm hname)], position?_insert r record (Or.inl hname)⟩

end Registry

end Reflector
