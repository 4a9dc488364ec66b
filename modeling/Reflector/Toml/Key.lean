import Reflector.Toml.Quoted

namespace Reflector.Toml

open Text

/-- Keys have fewer parts than this, and fewer arrays and inline tables are nested in a value. -/
def maxDepth : Nat := 80

def isBareChar (c : Char) : Bool :=
  c.isAlphanum || c == '_' || c == '-'

def keyPart? : Reader String := fun cs =>
  match lineString? cs with
  | some part => some part
  | none =>
    match cs.takeWhile isBareChar with
    | [] => none
    | part => some (String.ofList part, cs.dropWhile isBareChar)

def keyParts? (cs : List Char) : Option (List String × List Char) :=
  match keyPart? (skipSpace cs) with
  | none => none
  | some (part, rest) =>
    match skipSpace rest with
    | '.' :: tail =>
      if tail.length < cs.length then
        (keyParts? tail).map fun (parts, after) => (part :: parts, after)
      else none
    | after => some ([part], after)
termination_by cs.length

/-- Reads a key; answers its last part apart from those before it. -/
def key? : Reader (List String × String) := fun cs => do
  let (parts, rest) ← keyParts? cs
  guard (parts.length < maxDepth)
  let last ← parts.getLast?
  return ((parts.dropLast, last), rest)

end Reflector.Toml
