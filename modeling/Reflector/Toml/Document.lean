import Reflector.Toml.Item
import Reflector.Toml.Spelled
/-!
# TOML documents

A document is a sequence of lines, each blank or with a header or a key and its value. The keys
below a header belong to the table that it opens, those before the first header to the document
itself.
-/

namespace Reflector.Toml

open Text

/-- What a line of a document says. -/
inductive Statement where
  | header (kind : HeaderKind) (path : List String) (key : String)
  | keyValue (kv : KeyValue)

def header? (kind : HeaderKind) (closing : List Char) : Reader Statement := fun cs => do
  let ((path, key), cs) ← key? cs
  let rest ← after? closing cs
  return (.header kind path key, rest)

def statement? : Reader Statement
  | '[' :: '[' :: cs => header? .arrayItem [']', ']'] cs
  | '[' :: cs => header? .table [']'] cs
  | cs => (keyValue? (value? (maxDepth - 1)) cs).map fun (kv, rest) => (.keyValue kv, rest)

def statements? (cs : List Char) : Option (List Statement) :=
  if cs = [] then some []
  else
    match afterLine? cs with
    | some rest => if rest.length < cs.length then statements? rest else none
    | none => do
      let (statement, tail) ← statement? (skipSpace cs)
      let rest ← afterLine? tail
      if rest.length < cs.length then
        let statements ← statements? rest
        return statement :: statements
      else none
termination_by cs.length

/-- Splits the lines of a document into the keys before the first header and the sections. -/
def sections (statements : List Statement) : List KeyValue × List Section :=
  statements.foldr
    (fun
      | .keyValue kv, (body, later) => (kv :: body, later)
      | .header kind path key, (body, later) => ([], ⟨kind, path, key, body⟩ :: later))
    ([], [])

def withoutByteOrderMark : List Char → List Char
  | '\uFEFF' :: cs => cs
  | cs => cs

def sortEntries (entries : List (String × Value)) : List (String × Value) :=
  entries.mergeSort fun a b => decide (a.1 ≤ b.1)

/-- Reads a document; answers its entries in the order in which they are written. -/
def writtenEntries? (text : String) : Option (List (String × Value)) := do
  let statements ← statements? (withoutByteOrderMark text.toList)
  let (preamble, later) := sections statements
  let entries ← Entries.addKeyValues [] preamble
  let entries ← later.foldlM Entries.addSection entries
  resolveEntries? (finishEntries entries)

/-- Reads a document; answers its entries in increasing order of the keys. -/
def document? (text : String) : Option (List (String × Value)) :=
  (writtenEntries? text).map sortEntries

end Reflector.Toml
