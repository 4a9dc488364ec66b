import Reflector.Attribute
import Reflector.Class.Bases
import Reflector.Class.Record
import Reflector.Class.Scan
import Reflector.Config
import Reflector.Declaration.Head
import Reflector.Event

namespace Reflector

open Text

inductive MemberKind where
  | field
  | method
deriving DecidableEq, Repr

namespace MemberKind

/-- The character belongs to the terminator of such a declaration, not to its name. -/
def isDelimiter : MemberKind → Char → Bool
  | field, c => c == ';' || c == '=' || c == '{'
  | method, c => c == '(' || c == '='

def end? (reader : DeclReader) : MemberKind → List Char → Nat → Option Nat
  | field => reader.fieldStop?
  | method => reader.methodStop?

end MemberKind

/-- The name in a slice of a declaration: blanks and terminators at its ends are no part of it. -/
def declaredName (isDelimiter : Char → Bool) (cs : List Char) : List Char :=
  trim (fun c => isBlank c || isDelimiter c) cs

/-- A declaration that follows a mark. -/
structure MarkedName where
  /-- The offset of the mark in the class body. -/
  offset : Nat
  /-- The declared name, which may turn out empty. -/
  name : List Char
deriving DecidableEq, Repr

/-- The declaration of one kind that a reader finds at a mark in a class body. -/
def markedName? (reader : DeclReader) (body : List Char) (kind : MemberKind) (pos : Nat) :
    Option MarkedName :=
  (kind.end? reader body pos).map fun stop =>
    let start := min (reader.nameOffset body pos) stop
    ⟨pos, declaredName kind.isDelimiter (slice start stop body)⟩

namespace ClassBlock

/-- The offsets of the reflection marks behind the header, from left to right. -/
def markOffsets (markNames : List (List Char)) (decl : ClassBlock) : List Nat :=
  let start := byteLength decl.header
  let members := (splitFromByte start decl.body).2
  ((markPattern markNames).spansFrom start none members).map (·.start)

def marked (markNames : List (List Char)) (reader : DeclReader) (decl : ClassBlock)
    (kind : MemberKind) : List MarkedName :=
  (decl.markOffsets markNames).filterMap (markedName? reader decl.body kind)

/-- The names of one kind that follow a mark, without the empty ones. -/
def memberNames (markNames : List (List Char)) (reader : DeclReader) (decl : ClassBlock)
    (kind : MemberKind) : List String :=
  ((decl.marked markNames reader kind).filter (·.name ≠ [])).map (String.ofList ·.name)

def emptyNames (markNames : List (List Char)) (reader : DeclReader) (decl : ClassBlock)
    (kind : MemberKind) : List Event :=
  ((decl.marked markNames reader kind).filter (·.name = [])).map (.emptyName ·.offset)

/-- A component marker occurs in the class, its header included. -/
def isComponent (config : Config) (decl : ClassBlock) : Bool :=
  config.componentMarkers.any fun marker => hasInfix marker.toList decl.body

/-- The record of a class. A component has the component base and, as its first method, `commit`. -/
def record (config : Config) (reader : DeclReader) (decl : ClassBlock) : ClassRecord :=
  let markNames := config.reflAttributes.map String.toList
  let bases := namedBases config.implsMacro.toList decl.body
  let fields := decl.memberNames markNames reader .field
  let methods := decl.memberNames markNames reader .method
  let component := decl.isComponent config
  { name := decl.name
    fields := fields.eraseDups
    methods := (if component then "commit" :: methods else methods).eraseDups
    bases := nameSet (if component then config.componentBase :: bases else bases)
    isComponent := component }

/-- What is reported while the record of a class is made. -/
def recordEvents (config : Config) (reader : DeclReader) (decl : ClassBlock) : List Event :=
  let markNames := config.reflAttributes.map String.toList
  decl.emptyNames markNames reader .field ++ decl.emptyNames markNames reader .method

end ClassBlock

end Reflector
