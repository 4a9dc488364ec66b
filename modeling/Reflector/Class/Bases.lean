import Reflector.Text.Blank
import Reflector.Text.Pattern
/-!
# Implemented bases

The bases of a class are the arguments of the first implements clause in its body: the configured
macro, blanks if any, and a list in parentheses that ends at the first closing one.
-/

namespace Reflector

open Text

/-- Reads an implements clause; answers the blanks, the arguments and the rest. -/
def implsClause? (macroName cs : List Char) : Option (List Char × List Char × List Char) := do
  let tail ← after? macroName cs
  let inside ← after? ['('] (tail.dropWhile isBlank)
  let rest ← after? [')'] (inside.dropWhile (· != ')'))
  return (tail.takeWhile isBlank, inside.takeWhile (· != ')'), rest)

theorem implsClause?_sound {macroName cs blanks arguments rest : List Char}
    (h : implsClause? macroName cs = some (blanks, arguments, rest)) :
    cs = macroName ++ blanks ++ '(' :: arguments ++ ')' :: rest := by
  simp only [implsClause?, bind, Option.bind_eq_some_iff, pure, Option.some.injEq,
    Prod.mk.injEq] at h
  obtain ⟨tail, ht, inside, hi, r, hr, rfl, rfl, rfl⟩ := h
  rw [after?_eq_some_iff] at ht hi hr
  have h₁ := List.takeWhile_append_dropWhile (p := (· != ')')) (l := inside)
  have h₂ := List.takeWhile_append_dropWhile (p := isBlank) (l := tail)
  rw [hr] at h₁
  rw [hi] at h₂
  have h : macroName ++ (tail.takeWhile isBlank ++ (['('] ++
      (inside.takeWhile (· != ')') ++ ([')'] ++ r)))) = cs := by
    rw [h₁, h₂, ht]
  simpa using h.symm

def implsPattern (macroName : List Char) : Pattern where
  match? _ cs := (implsClause? macroName cs).map fun (blanks, arguments, rest) =>
    (macroName ++ blanks ++ '(' :: arguments ++ [')'], rest)
  sound {_ cs piece rest} h := by
    obtain ⟨⟨blanks, arguments, r⟩, hc, he⟩ := Option.map_eq_some_iff.1 h
    simp only [Prod.mk.injEq] at he
    obtain ⟨rfl, rfl⟩ := he
    refine ⟨by simp, ?_⟩
    rw [implsClause?_sound hc]
    simp

/-- The entries of an argument list without the blanks around them, empty entries left out. -/
def argumentNames (arguments : List Char) : List (List Char) :=
  ((arguments.splitOn ',').map (trim isBlank)).filter (· ≠ [])

/-- The bases that the first implements clause of a text names, in order and with repeats. -/
def namedBases (macroName cs : List Char) : List String :=
  match (implsPattern macroName).find? none cs with
  | none => []
  | some o =>
    match implsClause? macroName (o.piece ++ o.after) with
    | none => []
    | some (_, arguments, _) => (argumentNames arguments).map String.ofList

end Reflector
