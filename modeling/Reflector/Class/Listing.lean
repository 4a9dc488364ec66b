import Reflector.Class.Registry
import Reflector.Text.Quoted

namespace Reflector

namespace Listing

def withComma : List String → List String
  | [] => []
  | [line] => [line ++ ","]
  | line :: lines => line :: withComma lines

def separated : List (List String) → List String
  | [] => []
  | [item] => item
  | item :: items => withComma item ++ separated items

/-- The lines of items between brackets, one level deeper than these. -/
def enclosed (opening closing : String) (items : List (List String)) : List String :=
  if items = [] then [opening ++ closing]
  else opening :: (separated items).map ("  " ++ ·) ++ [closing]

def label (key : String) : String :=
  Text.quoted key ++ ": "

def namesMember (key : String) (names : List String) : List String :=
  enclosed (label key ++ "[") "]" (names.map fun name => [Text.quoted name])

def recordLines (record : ClassRecord) : List String :=
  enclosed "\x7b" "\x7d"
    [[label "name" ++ Text.quoted record.name], namesMember "fields" record.fields,
      namesMember "methods" record.methods, namesMember "bases" record.bases,
      [label "is_component" ++ toString record.isComponent]]

end Listing

/-- The listing of a registry, ended by a line feed. -/
def Registry.listing (registry : Registry) : String :=
  "\n".intercalate (Listing.enclosed "[" "]" (registry.classes.map Listing.recordLines)) ++ "\n"

end Reflector
