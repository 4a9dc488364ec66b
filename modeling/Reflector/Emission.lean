import Reflector.Class.Registry
/-!
# The generated source

Three parts are generated from a registry, each a sequence of lines: a function that registers every
class, a description of every class for the compiler, and the bodies that save and load it. The last
line of the whole names the target.
-/

namespace Reflector

namespace Emission

def ofLines (lines : List String) : String :=
  String.join (lines.map (· ++ "\n"))

def registerFunction : String := "_AkariGeneratedMeta"

def targetMacro : String := "__AKR_PLUGIN_NAME__"

def propertyLine (name field : String) : String :=
  "  c.property(\"" ++ field ++ "\", &" ++ name ++ "::" ++ field ++ ");"

def methodLine (name method : String) : String :=
  "  c.method(\"" ++ method ++ "\", &" ++ name ++ "::" ++ method ++ ");"

def registrationBlock (record : ClassRecord) : List String :=
  let bases := String.join (record.bases.map ("," ++ ·))
  [" \x7b", "  auto c = class_<" ++ record.name ++ bases ++ ">(\"" ++ record.name ++ "\");"]
    ++ record.fields.map (propertyLine record.name)
    ++ record.methods.map (methodLine record.name)
    ++ [methodLine record.name "save", methodLine record.name "load", " \x7d"]

def registrationLines (registry : Registry) : List String :=
  ["void " ++ registerFunction ++ "(Plugin &p)\x7b"]
    ++ registry.classes.flatMap registrationBlock ++ ["\x7d"]

def registration (registry : Registry) : String :=
  ofLines (registrationLines registry)

def attributeLine (field : String) : String :=
  "  static constexpr StaticAttribute _attr_" ++ field ++ "[] = \x7b \x7b\"name\", \"" ++ field
    ++ "\" \x7d \x7d;"

def visitLine (field : String) : String :=
  "    f(StaticProperty::make(\"" ++ field ++ "\", _attr_" ++ field ++ "), object." ++ field ++ ");"

/-- The lines of the function that visits the fields of an object, which may be constant. -/
def visitBlock (qualifier : String) (record : ClassRecord) : List String :=
  ["  template<class F>static void foreach_property(" ++ qualifier ++ record.name
      ++ " & object,F && f)\x7b"]
    ++ record.fields.map visitLine ++ ["  \x7d"]

def staticMetaBlock (record : ClassRecord) : List String :=
  ["template<> struct StaticMeta<" ++ record.name ++ ">\x7b"]
    ++ record.fields.map attributeLine
    ++ ["  static size_t property_count() \x7breturn " ++ toString record.fields.length ++ ";\x7d",
      "  static size_t method_count() \x7breturn " ++ toString record.methods.length ++ ";\x7d"]
    ++ visitBlock "" record ++ visitBlock "const " record ++ ["\x7d;"]

def staticMeta (registry : Registry) : String :=
  ofLines (registry.classes.flatMap staticMetaBlock)

/-- The lines that hand every field of an object to an archive visitor; none without fields. -/
def archiveBlock (visitor forwarded : String) (record : ClassRecord) : List String :=
  if record.fields = [] then []
  else
    ["  akari::serialize::" ++ visitor ++ " v\x7bar\x7d;",
      "  StaticMeta<" ++ record.name
        ++ ">::foreach_property(*this, [&](const StaticProperty& meta, auto && prop)\x7b",
      "      using T = std::decay_t<decltype(prop)>;",
      "      v.visit(" ++ forwarded ++ ", meta.name.data());",
      "  \x7d);"]

def serializationBlock (record : ClassRecord) : List String :=
  ["void " ++ record.name ++ "::save(serialize::OutputArchive &ar)const\x7b"]
    ++ archiveBlock "AutoSaveVisitor" "std::forward<const T>(prop)" record ++ ["\x7d"]
    ++ ["void " ++ record.name ++ "::load(serialize::InputArchive &ar)\x7b"]
    ++ archiveBlock "AutoLoadVisitor" "std::forward<T>(prop)" record ++ ["\x7d"]

def serialization (registry : Registry) : String :=
  ofLines (registry.classes.flatMap serializationBlock)

def trailer (target : String) : String :=
  ofLines ["#define " ++ targetMacro ++ " \"" ++ target ++ "\""]

end Emission

def Registry.render (registry : Registry) (target : String) : String :=
  Emission.registration registry ++ Emission.staticMeta registry
    ++ Emission.serialization registry ++ Emission.trailer target

end Reflector
