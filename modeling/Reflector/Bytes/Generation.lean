import Reflector.Bytes.Block
import Reflector.Bytes.Declaration
import Reflector.Bytes.Source
import Reflector.Generation
/-!
# Generation by byte index

A run of the generator in which every piece of a text is cut out between two byte offsets. A cut that
lies past the end of the text or inside a character fails, and the run with it.
-/

namespace Reflector.Bytes

open Text Source

/-- The first index at or after `i` of a colon that is not half of a pair. -/
def singleColon? (bytes : List UInt8) (i : Nat) : Option Nat :=
  match h : at? bytes i with
  | none => none
  | some c =>
    if c = ':' && left? bytes i != some (some ':') && at? bytes (i + 1) != some ':' then some i
    else singleColon? bytes (i + 1)
termination_by bytes.length - i
decreasing_by
  have := lt_of_at? h
  omega

def nameEnd? (header : List Char) : Option (List Char) :=
  match singleColon? (encode header) 0 with
  | some colon => slice? 0 colon header
  | none => some (trimEnd (· == '{') (trimEnd isBlank header))

def headerName? (keywords : List (List Char)) (header : List Char) :
    Option (Except Failure String) := do
  let front ← nameEnd? (attributePattern.replace [' '] none header)
  match (lastWord? front).filter (!keywords.contains ·) with
  | some name => return .ok (String.ofList name)
  | none => return .error (.unnamedClass (String.ofList (trim isBlank header)))

/-- The class that a header at an offset begins, and the offset behind it. -/
def classAt? (keywords : List (List Char)) (buffer : List Char) (start stop length : Nat) :
    Option (Except Failure ClassBlock) := do
  let header ← slice? start (start + length) buffer
  let body ← slice? start stop buffer
  let name ← headerName? keywords header
  return name.map fun name => ⟨name, header, body, start⟩

/-- Scans for class declarations from the offset of the text not read yet. -/
def scanFrom? (keywords : List (List Char)) (buffer : List Char) (cursor : Nat) : Option Scan :=
  match suffix? cursor buffer with
  | none => none
  | some rest =>
    match (headerPattern keywords).find? none rest with
    | none => some ⟨[], .complete⟩
    | some o =>
      let start := cursor + byteLength o.before
      match h : closeBrace? (encode buffer) {} start with
      | none => some ⟨[], .unbalanced start⟩
      | some stop =>
        match classAt? keywords buffer start stop (byteLength o.piece) with
        | none => none
        | some (.error failure) => some ⟨[], .failed failure⟩
        | some (.ok decl) =>
          have := closeBrace?_bounds h
          (scanFrom? keywords buffer stop).map fun later =>
            ⟨decl :: later.classes, later.ending⟩
termination_by (encode buffer).length - cursor
decreasing_by
  omega

def declEnd? : MemberKind → List Char → Nat → Option (Option Nat)
  | .field => fieldEnd?
  | .method => methodEnd?

def markedName? (body : List Char) (kind : MemberKind) (pos : Nat) : Option (Option MarkedName) := do
  match ← declEnd? kind body pos with
  | none => return none
  | some stop =>
    let start ← nameStart? body pos
    let text ← slice? (min start stop) stop body
    return some ⟨pos, declaredName kind.isDelimiter text⟩

/-- The declarations of one kind that follow a mark behind the header. The search for marks starts where
the header ends, which must be a place in the body. -/
def marked? (markNames : List (List Char)) (decl : ClassBlock) (kind : MemberKind) :
    Option (List MarkedName) := do
  let start := byteLength decl.header
  let members ← suffix? start decl.body
  let marks := (markPattern markNames).spansFrom start none members
  let found ← marks.mapM (markedName? decl.body kind ·.start)
  return found.filterMap id

/-- The record of a class and what is reported on the way. -/
def record? (config : Config) (decl : ClassBlock) : Option (List Event × ClassRecord) := do
  let markNames := config.reflAttributes.map String.toList
  let fields ← marked? markNames decl .field
  let methods ← marked? markNames decl .method
  let names := fun found : List MarkedName =>
    (found.filter (·.name ≠ [])).map (String.ofList ·.name)
  let reports := fun found : List MarkedName =>
    (found.filter (·.name = [])).map (Event.emptyName ·.offset)
  let bases := namedBases config.implsMacro.toList decl.body
  let component := decl.isComponent config
  return (reports fields ++ reports methods,
    { name := decl.name
      fields := (names fields).eraseDups
      methods := (if component then "commit" :: names methods else names methods).eraseDups
      bases := nameSet (if component then config.componentBase :: bases else bases)
      isComponent := component })

def add? (config : Config) (target : String) (c : Collection) (decl : ClassBlock) :
    Option Collection := do
  if decl.isSelected config target then
    let (events, record) ← record? config decl
    let (old, registry) := c.registry.exchange record
    return { registry
             events := c.events ++ .classSelected decl.name :: events
               ++ .classExtracted record.name record.fields.length record.methods.length
                   record.isComponent
                 :: (if old.isSome then [.classRepeated decl.name] else []) }
  else return { c with events := c.events ++ [.classSkipped decl.name] }

/-- Generates from a source text, or fails where a cut fails. -/
def generate? (config : Config) (target source : String) :
    Option (List Event × Except Failure Generation) := do
  let buffer ← prepare? config.stripKeyword.toList source.toList
  let scan ← scanFrom? (config.classKeywords.map String.toList) buffer 0
  let collection ← scan.classes.foldlM (add? config target) {}
  let result := match scan.ending.failure? with
    | some failure => .error failure
    | none => .ok (Generation.mk (collection.registry.render target) collection.registry)
  return (collection.events ++ scan.ending.events, result)

end Reflector.Bytes
