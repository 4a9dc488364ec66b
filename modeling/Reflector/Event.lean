import Reflector.Config

namespace Reflector

inductive Level where
  | debug
  | info
  | warn
deriving DecidableEq, Repr

inductive EventValue where
  | text (s : String)
  | number (n : Nat)
  | flag (b : Bool)
deriving DecidableEq, Repr

inductive Event where
  /-- The braces after the header at this offset do not balance. -/
  | unbalanced (offset : Nat)
  /-- The declaration after the mark at this offset of a class body has an empty name. -/
  | emptyName (offset : Nat)
  /-- The class is neither the target nor marked. -/
  | classSkipped (name : String)
  | classSelected (name : String)
  /-- The members of the class have been collected. -/
  | classExtracted (name : String) (fields methods : Nat) (component : Bool)
  /-- A class of this name was selected before. -/
  | classRepeated (name : String)
  /-- The configuration has no such key; perhaps another one is meant. -/
  | unknownKey (key : String) (suggestion : Option String)
  /-- The value of this key is no array of strings, or an empty one. -/
  | stringsExpected (key : String)
  /-- The value of this key is no string. -/
  | stringExpected (key : String)
  /-- The configuration at this path is about to be read. -/
  | configLoading (path : String)
  | generatedWritten (target : String) (classes : Nat) (output : String)
deriving DecidableEq, Repr

namespace Event

def level : Event → Level
  | unbalanced _ | emptyName _ | classSkipped _ | classExtracted .. | configLoading _ => .debug
  | classSelected _ | generatedWritten .. => .info
  | classRepeated _ | unknownKey .. | stringsExpected _ | stringExpected _ => .warn

def message : Event → String
  | unbalanced _ => "Unbalanced braces after class header, stopping scan"
  | emptyName _ => "Empty declaration name after marker"
  | classSkipped _ => "Skipping class"
  | classSelected _ => "Generating meta info"
  | classExtracted .. => "Class extracted"
  | classRepeated _ => "Class declared twice, keeping the last one"
  | unknownKey _ (some suggestion) =>
    "Unknown key in " ++ Config.fileName ++ " — did you mean '" ++ suggestion ++ "'?"
  | unknownKey _ none =>
    "Unknown key in " ++ Config.fileName ++ " (known keys: " ++ ", ".intercalate Config.keys ++ ")"
  | stringsExpected _ =>
    "Expected a non-empty array of strings in " ++ Config.fileName ++ ", keeping default"
  | stringExpected _ => "Expected a string in " ++ Config.fileName ++ ", keeping default"
  | configLoading _ => "Loading config"
  | generatedWritten .. => "Wrote generated metadata"

/-- The values that go with the message, by name. -/
def values : Event → List (String × EventValue)
  | unbalanced offset | emptyName offset => [("offset", .number offset)]
  | classSkipped name | classSelected name | classRepeated name => [("class", .text name)]
  | classExtracted name fields methods component =>
    [("class", .text name), ("fields", .number fields), ("methods", .number methods),
      ("component", .flag component)]
  | unknownKey key (some suggestion) => [("key", .text key), ("suggestion", .text suggestion)]
  | unknownKey key none => [("key", .text key)]
  | stringsExpected key | stringExpected key => [("key", .text key)]
  | configLoading path => [("path", .text path)]
  | generatedWritten target classes output =>
    [("target_class", .text target), ("classes", .number classes), ("output", .text output)]

end Event

end Reflector
