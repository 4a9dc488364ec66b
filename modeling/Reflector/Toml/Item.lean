import Reflector.Toml.Calendar
import Reflector.Toml.Draft
import Reflector.Toml.Key
import Reflector.Toml.Number

namespace Reflector.Toml

open Text

def boolean? : Reader Bool := fun cs =>
  match after? ['t', 'r', 'u', 'e'] cs with
  | some rest => some (true, rest)
  | none => (after? ['f', 'a', 'l', 's', 'e'] cs).map fun rest => (false, rest)

def scalar? : Reader Value := fun cs =>
  (string? cs).map (fun (s, rest) => (.string s, rest))
    <|> (boolean? cs).map (fun (b, rest) => (.boolean b, rest))
    <|> (dateTime? .literal cs).map (fun (d, rest) => (.dateTime d, rest))
    <|> (float? cs).map (fun (d, rest) => (.float d, rest))
    <|> (integer? cs).map (fun (n, rest) => (.integer n, rest))

/-- Reads the values of an array and its closing bracket. -/
def elements? (read : Reader Value) (cs : List Char) : Option (List Value × List Char) :=
  match skipFiller false cs with
  | ']' :: rest => some ([], rest)
  | inside => do
    let (value, tail) ← read inside
    match skipFiller false tail with
    | ']' :: rest => return ([value], rest)
    | ',' :: tail =>
      if tail.length < cs.length then
        let (values, rest) ← elements? read tail
        return (value :: values, rest)
      else none
    | _ => none
termination_by cs.length

def keyValue? (read : Reader Value) : Reader KeyValue := fun cs => do
  let ((path, key), cs) ← key? cs
  let cs ← after? ['='] cs
  let (value, rest) ← read (skipSpace cs)
  return (⟨path, key, value⟩, rest)

/-- Reads the keys and values of an inline table that is not empty, and its closing brace. -/
def members? (read : Reader Value) (cs : List Char) : Option (List KeyValue × List Char) := do
  let (kv, tail) ← keyValue? read cs
  match skipSpace tail with
  | '}' :: rest => return ([kv], rest)
  | ',' :: tail =>
    if tail.length < cs.length then
      let (kvs, rest) ← members? read tail
      return (kv :: kvs, rest)
    else none
  | _ => none
termination_by cs.length

def inlineTable? (read : Reader Value) : Reader Value := fun cs =>
  match skipSpace cs with
  | '}' :: rest => some (.table [], rest)
  | _ => do
    let (kvs, rest) ← members? read cs
    let entries ← Entries.addKeyValues [] kvs
    return (.table (finishEntries entries), rest)

/-- Reads a value whose arrays and inline tables are nested at most so deep. -/
def value? : Nat → Reader Value
  | depth + 1, '[' :: cs => (elements? (value? depth) cs).map fun (vs, rest) => (.array vs, rest)
  | depth + 1, '{' :: cs => inlineTable? (value? depth) cs
  | _, cs => scalar? cs

end Reflector.Toml
