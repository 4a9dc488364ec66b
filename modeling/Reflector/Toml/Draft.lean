import Reflector.Toml.Value
/-!
# Tables under construction

While a document is read, a table remembers how it came about, as that decides what may still be
added to it. A table that a header or an inline table declares is complete; one that was only
implied by a longer header may be declared later; one that dotted keys made takes further dotted
keys. A table has its place where it is declared, and before that where it is implied.
-/

namespace Reflector.Toml

/-- How a table came about. -/
inductive Origin where
  /-- By its own header, as an inline table, or as the document itself. -/
  | declared
  /-- By the header of a table inside it. -/
  | implied
  | dotted
deriving DecidableEq, Repr

/-- A part of a document under construction. -/
inductive Draft where
  | value (v : Value)
  | table (origin : Origin) (entries : List (String × Draft))
  /-- An array of tables, each by its entries. -/
  | tables (items : List (List (String × Draft)))

abbrev Entries := List (String × Draft)

/-- A value and the dotted key it is given to, the last part of the key apart. -/
structure KeyValue where
  path : List String
  key : String
  value : Value

inductive HeaderKind where
  | table
  | arrayItem

structure Section where
  kind : HeaderKind
  path : List String
  key : String
  body : List KeyValue

namespace Entries

/-- Gives a key a new value in place of the old one, or adds it at the end. -/
def put (key : String) (draft : Draft) : Entries → Entries
  | [] => [(key, draft)]
  | (k, d) :: rest => if k = key then (k, draft) :: rest else (k, d) :: put key draft rest

/-- Changes the entries of the table at a path and answers the whole. Missing tables are made with
the given origin; an array of tables stands for its last item. A path through a value leads nowhere,
and so does a dotted path through a declared table. -/
def updateAt (made : Origin) (change : Origin → Entries → Option Entries) :
    List String → Origin → Entries → Option Entries
  | [], origin, entries => change origin entries
  | key :: path, _, entries =>
    match entries.lookup key with
    | none => do
      let inner ← updateAt made change path made []
      return put key (.table made inner) entries
    | some (.value _) => none
    | some (.table origin inner) =>
      if made = .dotted && origin = .declared then none
      else do
        let inner ← updateAt made change path origin inner
        return put key (.table origin inner) entries
    | some (.tables items) => do
      let last ← items.getLast?
      let inner ← updateAt made change path .declared last
      return put key (.tables (items.dropLast ++ [inner])) entries

/-- Adds a value under its dotted key. The key must be new, and a table on its path must have been
made by dotted keys alone. -/
def addKeyValue (entries : Entries) (kv : KeyValue) : Option Entries :=
  let add := fun (origin : Origin) (inner : Entries) =>
    if (origin == .dotted) == kv.path.isEmpty then none
    else if (inner.lookup kv.key).isSome then none
    else some (inner ++ [(kv.key, .value kv.value)])
  updateAt .dotted add kv.path .declared entries

def addKeyValues (entries : Entries) (kvs : List KeyValue) : Option Entries :=
  kvs.foldlM addKeyValue entries

def remove (key : String) (entries : Entries) : Entries :=
  entries.filter (·.1 ≠ key)

/-- Adds the table that a header opens. The table must be new or only implied so far, or the header
must open a further item of an array of tables. -/
def addSection (entries : Entries) (part : Section) : Option Entries :=
  let add := fun (_ : Origin) (outer : Entries) =>
    match part.kind, outer.lookup part.key with
    | .table, none => do
      let inner ← addKeyValues [] part.body
      return put part.key (.table .declared inner) outer
    | .table, some (.table .implied inner) => do
      let inner ← addKeyValues inner part.body
      return put part.key (.table .declared inner) (remove part.key outer)
    | .arrayItem, none => do
      let inner ← addKeyValues [] part.body
      return put part.key (.tables [inner]) outer
    | .arrayItem, some (.tables items) => do
      let inner ← addKeyValues [] part.body
      return put part.key (.tables (items ++ [inner])) outer
    | _, _ => none
  updateAt .implied add part.path .declared entries

end Entries

mutual

def Draft.finish : Draft → Value
  | .value v => v
  | .table _ entries => .table (finishEntries entries)
  | .tables items => .array (finishItems items)

def finishEntries : List (String × Draft) → List (String × Value)
  | [] => []
  | (key, draft) :: rest => (key, draft.finish) :: finishEntries rest

def finishItems : List (List (String × Draft)) → List Value
  | [] => []
  | entries :: rest => .table (finishEntries entries) :: finishItems rest

end

end Reflector.Toml
