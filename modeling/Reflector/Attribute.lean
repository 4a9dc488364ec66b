import Reflector.Text.Blank
import Reflector.Text.Pattern
/-!
# Attributes

An attribute is a text between double square brackets. A reflection mark is the attribute that
consists of one of the configured names, with blanks around it if any.
-/

namespace Reflector

open Text

/-- Reads an attribute whose inside has no closing bracket. -/
def attribute? : List Char → Option (List Char × List Char)
  | '[' :: '[' :: cs =>
    let inside := fun c => c != ']'
    match cs.dropWhile inside with
    | ']' :: ']' :: rest => some ('[' :: '[' :: cs.takeWhile inside ++ [']', ']'], rest)
    | _ => none
  | _ => none

theorem attribute?_cons_of_ne {c : Char} (h : c ≠ '[') (cs : List Char) :
    attribute? (c :: cs) = none := by
  unfold attribute?
  split
  · rename_i heq
    exact absurd (List.cons.inj heq).1 h
  · rfl

theorem attribute?_append {inside : List Char} (h : ']' ∉ inside) (rest : List Char) :
    attribute? (['[', '['] ++ inside ++ [']', ']'] ++ rest) =
      some (['[', '['] ++ inside ++ [']', ']'], rest) := by
  have htext : ['[', '['] ++ inside ++ [']', ']'] ++ rest =
      '[' :: '[' :: (inside ++ ']' :: ']' :: rest) := by simp
  rw [htext, attribute?]
  simp only [dropWhile_ne_append h, takeWhile_ne_append h]
  rfl

def attributePattern : Pattern where
  match? _ cs := attribute? cs
  sound {_ cs piece rest} h := by
    unfold attribute? at h
    split at h
    · rename_i cs
      simp only at h
      split at h
      · rename_i after hd
        simp only [Option.some.injEq, Prod.mk.injEq] at h
        obtain ⟨rfl, rfl⟩ := h
        refine ⟨by simp, ?_⟩
        have := List.takeWhile_append_dropWhile (p := fun c => c != ']') (l := cs)
        rw [hd] at this
        simpa using this.symm
      · contradiction
    · contradiction

/-- The names to try: an empty list stands for the empty name alone. -/
def alternatives (names : List (List Char)) : List (List Char) :=
  if names = [] then [[]] else names

def markEnd? (names : List (List Char)) (cs : List Char) : Option (List Char × List Char) :=
  names.findSome? fun name => do
    let tail ← after? name cs
    let rest ← after? [']', ']'] (tail.dropWhile isBlank)
    return (name ++ tail.takeWhile isBlank ++ [']', ']'], rest)

/-- Reads a reflection mark. The blanks before the name are tried from the most to the fewest, as a
name may itself begin with a blank. -/
def mark? (names : List (List Char)) (cs : List Char) : Option (List Char × List Char) := do
  let inside ← after? ['[', '['] cs
  let blanks := (inside.takeWhile isBlank).length
  (List.range (blanks + 1)).reverse.findSome? fun n => do
    let (tail, rest) ← markEnd? names (inside.drop n)
    return ('[' :: '[' :: inside.take n ++ tail, rest)

theorem markEnd?_sound {names : List (List Char)} {cs text rest : List Char}
    (h : markEnd? names cs = some (text, rest)) : cs = text ++ rest := by
  obtain ⟨name, -, h⟩ := List.exists_of_findSome?_eq_some h
  simp only [bind, Option.bind_eq_some_iff, pure, Option.some.injEq, Prod.mk.injEq] at h
  obtain ⟨tail, ht, r, hr, rfl, rfl⟩ := h
  rw [after?_eq_some_iff] at ht hr
  rw [ht, List.append_assoc, List.append_assoc, ← hr, List.takeWhile_append_dropWhile]

def markPattern (names : List (List Char)) : Pattern where
  match? _ cs := mark? (alternatives names) cs
  sound {_ cs piece rest} h := by
    simp only [mark?, bind, Option.bind_eq_some_iff] at h
    obtain ⟨inside, hi, h⟩ := h
    rw [after?_eq_some_iff] at hi
    obtain ⟨n, -, h⟩ := List.exists_of_findSome?_eq_some h
    simp only [Option.bind_eq_some_iff, pure, Option.some.injEq, Prod.mk.injEq, Prod.exists] at h
    obtain ⟨tail, r, ht, rfl, rfl⟩ := h
    refine ⟨by simp, ?_⟩
    have := markEnd?_sound ht
    rw [hi]
    simp [← this]

end Reflector
