import Reflector.Class.Members
import Reflector.Class.Registry
import Reflector.Emission
import Reflector.Failure
import Reflector.Source.Keyword
/-!
# Generation

From a source text to the generated source: the text is prepared and scanned, the records of the
selected classes go into a registry, and the registry is rendered. A class is selected if it is the
target or if its header carries a reflection mark.
-/

namespace Reflector

open Text Source

structure Generation where
  source : String
  registry : Registry
deriving DecidableEq, Repr

/-- The class is the target, or its header carries a reflection mark. -/
def ClassBlock.isSelected (config : Config) (target : String) (decl : ClassBlock) : Bool :=
  decl.name == target ||
    (markPattern (config.reflAttributes.map String.toList)).occursIn decl.header

/-- The records of the classes selected so far, and what was reported on the way. -/
structure Collection where
  registry : Registry := ∅
  events : List Event := []
deriving DecidableEq, Repr

/-- Takes in one class: it is skipped, or its record goes into the registry. -/
def Collection.add (config : Config) (reader : DeclReader) (target : String) (c : Collection)
    (decl : ClassBlock) : Collection :=
  if decl.isSelected config target then
    let record := decl.record config reader
    let (old, registry) := c.registry.exchange record
    { registry
      events := c.events ++ .classSelected decl.name :: decl.recordEvents config reader
        ++ .classExtracted record.name record.fields.length record.methods.length
            record.isComponent
          :: (if old.isSome then [.classRepeated decl.name] else []) }
  else { c with events := c.events ++ [.classSkipped decl.name] }

namespace Ending

def events : Ending → List Event
  | unbalanced offset => [.unbalanced offset]
  | _ => []

def failure? : Ending → Option Failure
  | failed failure => some failure
  | _ => none

end Ending

/-- The class declarations of a prepared text under a configuration. -/
def Config.scan (config : Config) (buffer : List Char) : Scan :=
  scanClasses (config.classKeywords.map String.toList) buffer

/-- The records of all classes of a prepared text, selected or not, and how the scan ended. -/
def recordClasses (config : Config) (reader : DeclReader) (buffer : List Char) :
    List Event × List ClassRecord × Ending :=
  let scan := config.scan buffer
  (scan.classes.flatMap (ClassBlock.recordEvents config reader) ++ scan.ending.events,
    scan.classes.map (ClassBlock.record config reader), scan.ending)

/-- Collects the records of the selected classes of a prepared text. A class without a name makes
the whole run fail, selected or not. -/
def registerClasses (config : Config) (reader : DeclReader) (target : String)
    (buffer : List Char) : List Event × Except Failure Registry :=
  let scan := config.scan buffer
  let collection := scan.classes.foldl (Collection.add config reader target) {}
  (collection.events ++ scan.ending.events,
    match scan.ending.failure? with
    | some failure => .error failure
    | none => .ok collection.registry)

/-- Generates from a source text, finding declarations with the given reader. -/
def generate (config : Config) (reader : DeclReader) (target source : String) :
    List Event × Except Failure Generation :=
  let buffer := prepare config.stripKeyword.toList source.toList
  let (events, result) := registerClasses config reader target buffer
  (events, result.map fun registry => ⟨registry.render target, registry⟩)

end Reflector
