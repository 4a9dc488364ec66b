import Reflector.Config
import Reflector.Event
import Reflector.Failure
import Reflector.Text.EditDistance
import Reflector.Toml.Value
/-!
# Reading a configuration

A configuration file is a TOML document whose keys override single settings. A key that is not known
and a value that is unfit leave the defaults alone and are reported, the unknown keys first. Which texts
are documents, and what entries they have, is up to the reader of documents.
-/

namespace Reflector

open Toml

/-- Answers the entries of a document, or nothing if the text is none. -/
abbrev DocumentReader := String → Option (List (String × Value))

/-- The distance of two keys, counted in the bytes of their UTF-8 encodings. -/
def keyDistance (key other : String) : Nat :=
  Text.editDistance key.toUTF8.data.toList other.toUTF8.data.toList

/-- The first known key that is nearest to the given one, if it is near enough to be meant. -/
def suggestion? (key : String) : Option String :=
  let nearest := Config.keys.find? fun known =>
    Config.keys.all fun other => keyDistance key known ≤ keyDistance key other
  nearest.filter fun known => keyDistance key known ≤ 3

/-- What is reported about the keys that are not known. -/
def unknownKeys (entries : List (String × Value)) : List Event :=
  ((entries.map (·.1)).filter (!Config.keys.contains ·)).map fun key =>
    .unknownKey key (suggestion? key)

/-- The setting under a key. Without a value that fits it is as before, and a value that does not fit
is reported. -/
def setting {α : Type} (fit? : Value → Option α) (report : String → Event)
    (entries : List (String × Value)) (key : String) (before : α) : List Event × α :=
  match entries.lookup key with
  | none => ([], before)
  | some value =>
    match fit? value with
    | some given => ([], given)
    | none => ([report key], before)

def stringsSetting : List (String × Value) → String → List String → List Event × List String :=
  setting (fun value => value.strings?.filter fun texts => !texts.isEmpty) .stringsExpected

def stringSetting : List (String × Value) → String → String → List Event × String :=
  setting Value.string? .stringExpected

/-- The configuration that the entries of a document give, and what is reported about them. -/
def Config.ofEntries (entries : List (String × Value)) : List Event × Config :=
  let defaults : Config := {}
  let (e₁, reflAttributes) := stringsSetting entries "refl_attributes" defaults.reflAttributes
  let (e₂, componentMarkers) :=
    stringsSetting entries "component_markers" defaults.componentMarkers
  let (e₃, classKeywords) := stringsSetting entries "class_keywords" defaults.classKeywords
  let (e₄, implsMacro) := stringSetting entries "impls_macro" defaults.implsMacro
  let (e₅, componentBase) := stringSetting entries "component_base" defaults.componentBase
  let (e₆, stripKeyword) := stringSetting entries "strip_keyword" defaults.stripKeyword
  (unknownKeys entries ++ e₁ ++ e₂ ++ e₃ ++ e₄ ++ e₅ ++ e₆,
    { reflAttributes, componentMarkers, implsMacro, componentBase, classKeywords, stripKeyword })

/-- Reads the text of the configuration file at a path. -/
def readConfigWith (document? : DocumentReader) (path text : String) :
    List Event × Except Failure Config :=
  match document? text with
  | none => ([], .error (.config path))
  | some entries =>
    let (events, config) := Config.ofEntries entries
    (events, .ok config)

end Reflector
