import Reflector.Attribute
import Reflector.Failure
import Reflector.Text.Word
/-!
# Class headers

A header runs from a class keyword, standing as a word of its own, to the next opening brace, with
no semicolon on the way; a forward declaration is therefore none. The name of the class is read off
its header.
-/

namespace Reflector

open Text

def isHeaderChar (c : Char) : Bool :=
  c != '{' && c != ';'

def headerOf? (left : Option Char) (cs keyword : List Char) :
    Option (List Char × List Char) := do
  let tail ← after? keyword cs
  let rest ← after? ['{'] (tail.dropWhile isHeaderChar)
  if isWordBoundary left cs.head? && isWordBoundary (keyword.getLast?.or left) tail.head? then
    return (keyword ++ tail.takeWhile isHeaderChar ++ ['{'], rest)
  else none

/-- Class headers with one of the given keywords, the first that fits. -/
def headerPattern (keywords : List (List Char)) : Pattern where
  match? left cs := (alternatives keywords).findSome? (headerOf? left cs)
  sound {left cs piece rest} h := by
    obtain ⟨keyword, -, h⟩ := List.exists_of_findSome?_eq_some h
    simp only [headerOf?, bind, Option.bind_eq_some_iff, pure, Option.ite_none_right_eq_some,
      Option.some.injEq, Prod.mk.injEq] at h
    obtain ⟨tail, ht, r, hr, -, rfl, rfl⟩ := h
    rw [after?_eq_some_iff] at ht hr
    refine ⟨by simp, ?_⟩
    rw [ht, List.append_assoc, List.append_assoc, ← hr, List.takeWhile_append_dropWhile]

/-- The text before the first colon that is not half of a pair, if there is one; `left` is the
character before the text. -/
def beforeColon? (left : Option Char) : List Char → Option (List Char)
  | [] => none
  | c :: cs =>
    if c = ':' && left != some ':' && cs.head? != some ':' then some []
    else (beforeColon? (some c) cs).map (c :: ·)

/-- The part of a header that ends with the name: what stands before the base clause, or else all
but the opening brace. -/
def nameEnd (header : List Char) : List Char :=
  (beforeColon? none header).getD (trimEnd (· == '{') (trimEnd isBlank header))

/-- The name that a header declares: the last word before the base clause or the opening brace, the
attributes left out. There is none if that word is missing or a class keyword. -/
def headerName? (keywords : List (List Char)) (header : List Char) : Option (List Char) := do
  let word ← lastWord? (nameEnd (attributePattern.replace [' '] none header))
  guard (!keywords.contains word)
  return word

/-- The name that a header declares. A header without one is reported without the blanks around
it. -/
def headerName (keywords : List (List Char)) (header : List Char) : Except Failure String :=
  match headerName? keywords header with
  | some name => .ok (String.ofList name)
  | none => .error (.unnamedClass (String.ofList (trim isBlank header)))

end Reflector
