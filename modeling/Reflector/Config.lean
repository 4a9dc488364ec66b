namespace Reflector

structure Config where
  /-- The attributes that mark a class or a member for reflection. -/
  reflAttributes : List String := ["refl", "akari::refl"]
  /-- A class whose body contains one of these is a component. -/
  componentMarkers : List String := ["AKR_DECL_COMP", "AKR_IMPLS"]
  /-- The macro whose arguments name the implemented bases. -/
  implsMacro : String := "AKR_IMPLS"
  /-- The base that every component has. -/
  componentBase : String := "Component"
  /-- The words that open a class declaration. -/
  classKeywords : List String := ["class"]
  /-- The keyword that is erased before the scan. -/
  stripKeyword : String := "final"
deriving DecidableEq, Repr, Inhabited

def Config.fileName : String := ".reflgen.toml"

def Config.keys : List String :=
  ["refl_attributes", "component_markers", "impls_macro", "component_base", "class_keywords",
    "strip_keyword"]

end Reflector
