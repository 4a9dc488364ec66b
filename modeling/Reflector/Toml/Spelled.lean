import Reflector.Toml.Calendar
/-!
# Spelled dates

One key is reserved: a table that begins with it stands for the date or time that the string under
the key spells, and whatever else the table holds is not looked at. The table of the document itself
is never taken for a date.
-/

namespace Reflector.Toml

def spelledDateKey : String := "$__toml_private_datetime"

def isSpelledDate (entries : List (String × Value)) : Bool :=
  entries.head?.any (·.1 == spelledDateKey)

/-- The date or time that a table with these entries spells. -/
def spelledDate? (entries : List (String × Value)) : Option DateTime := do
  let (_, value) ← entries.head?
  DateTime.ofString? (← value.string?)

mutual

/-- The value with dates in place of the tables that spell them. There is none if such a table holds
no string that spells a date. -/
def Value.resolve? : Value → Option Value
  | .array items => (resolveItems? items).map .array
  | .table entries =>
    if isSpelledDate entries then (spelledDate? entries).map .dateTime
    else (resolveEntries? entries).map .table
  | value => some value

def resolveItems? : List Value → Option (List Value)
  | [] => some []
  | value :: rest => do
    let value ← value.resolve?
    let rest ← resolveItems? rest
    return value :: rest

def resolveEntries? : List (String × Value) → Option (List (String × Value))
  | [] => some []
  | (key, value) :: rest => do
    let value ← value.resolve?
    let rest ← resolveEntries? rest
    return (key, value) :: rest

end

end Reflector.Toml
