import Mathlib.Data.List.DropRight
import Reflector.File.Path

namespace Reflector.Path

/-- The path is a beginning of the other one that ends where one of its parts ends. -/
def Begins (path whole : String) : Prop :=
  ∃ rest, whole.toList = path.toList ++ rest ∧
    (rest = [] ∨ rest.head? = some '/' ∨ path.toList.getLast? = some '/')

theorem Begins.refl (path : String) : Begins path path :=
  ⟨[], by simp, Or.inl rfl⟩

theorem Begins.trans {a b c : String} (hab : Begins a b) (hbc : Begins b c) : Begins a c := by
  obtain ⟨rest, hb, hrest⟩ := hab
  obtain ⟨more, hc, hmore⟩ := hbc
  refine ⟨rest ++ more, by rw [hc, hb, List.append_assoc], ?_⟩
  rcases hrest with rfl | hrest | hrest
  · rw [hb, List.append_nil] at hmore
    rwa [List.nil_append]
  · obtain ⟨tail, rfl⟩ := List.head?_eq_some_iff.mp hrest
    exact Or.inr (Or.inl rfl)
  · exact Or.inr (Or.inr hrest)

end Reflector.Path
