/-!
# Class records

What is known about one reflected class. The bases are a set, kept as the strictly increasing list
of its names; strings are ordered by code point, which is also the order of their UTF-8 encodings.
-/

namespace Reflector

/-- Inserts a name into an increasing list of names, unless it is there. -/
def insertName (name : String) : List String → List String
  | [] => [name]
  | n :: ns =>
    if name < n then name :: n :: ns
    else if name = n then n :: ns
    else n :: insertName name ns

/-- The increasing list of the distinct names of a list. -/
def nameSet (names : List String) : List String :=
  names.foldr insertName []

@[simp] theorem mem_insertName {x name : String} {ns : List String} :
    x ∈ insertName name ns ↔ x = name ∨ x ∈ ns := by
  induction ns with
  | nil => simp [insertName]
  | cons n ns ih =>
    simp only [insertName]
    split
    · simp
    · split
      · rename_i h
        subst h
        simp
      · simp only [List.mem_cons, ih]
        constructor
        · rintro (h | h | h) <;> simp [h]
        · rintro (h | h | h) <;> simp [h]

@[simp] theorem mem_nameSet {x : String} {names : List String} : x ∈ nameSet names ↔ x ∈ names := by
  induction names with
  | nil => simp [nameSet]
  | cons n ns ih =>
    rw [nameSet] at ih
    simp [nameSet, ih]

theorem pairwise_insertName {name : String} {ns : List String} (h : ns.Pairwise (· < ·)) :
    (insertName name ns).Pairwise (· < ·) := by
  induction ns with
  | nil => simp [insertName]
  | cons n ns ih =>
    obtain ⟨hn, hns⟩ := List.pairwise_cons.1 h
    simp only [insertName]
    split
    · rename_i hlt
      refine List.pairwise_cons.2 ⟨fun x hx => ?_, h⟩
      rcases List.mem_cons.1 hx with rfl | hx
      · exact hlt
      · exact String.lt_trans hlt (hn x hx)
    · split
      · exact h
      · rename_i hlt hne
        refine List.pairwise_cons.2 ⟨fun x hx => ?_, ih hns⟩
        rcases mem_insertName.1 hx with rfl | hx
        · exact String.not_le.1 fun hle => hne (String.le_antisymm hle (String.not_lt.1 hlt))
        · exact hn x hx

theorem pairwise_nameSet (names : List String) : (nameSet names).Pairwise (· < ·) := by
  induction names with
  | nil => simp [nameSet]
  | cons n ns ih => exact pairwise_insertName ih

structure ClassRecord where
  name : String
  /-- The reflected fields in the order of their first occurrence. -/
  fields : List String := []
  /-- The reflected methods in the order of their first occurrence. -/
  methods : List String := []
  /-- The implemented bases in increasing order. -/
  bases : List String := []
  isComponent : Bool := false
deriving DecidableEq, Repr

end Reflector
