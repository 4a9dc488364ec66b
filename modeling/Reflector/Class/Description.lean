import Reflector.Class.Members
/-!
# Class descriptions

What a class reflects, described without a source text, and the plain source text that declares it.
The names are ASCII identifiers that neither the preparation of a text nor the search for members
takes for words of their own.
-/

namespace Reflector

open Text

def isIdentifier (cs : List Char) : Bool :=
  cs.head?.any isNameStart && cs.all isNameChar

/-- An identifier without a meaning to a run under the default configuration. -/
structure Identifier where
  text : String
  isIdentifier_text : isIdentifier text.toList = true
  ne_final : text ≠ "final"
  ne_operator : text ≠ "operator"
  no_marker : ∀ marker ∈ ["AKR_DECL_COMP", "AKR_IMPLS"], ¬ marker.toList <:+: text.toList

def Identifier.chars (name : Identifier) : List Char :=
  name.text.toList

inductive TypeSign where
  | pointer
  | reference
deriving DecidableEq, Repr

def TypeSign.char : TypeSign → Char
  | pointer => '*'
  | reference => '&'

/-- A type: one or more words, and a sign behind them if any. -/
structure TypeDescription where
  first : Identifier
  more : List Identifier
  sign : Option TypeSign

def TypeDescription.source (type : TypeDescription) : List Char :=
  type.first.chars ++ type.more.flatMap (fun word => ' ' :: word.chars) ++
    type.sign.toList.flatMap fun sign => [' ', sign.char]

def markText : List Char :=
  "[[refl]]".toList

structure MemberDescription where
  kind : MemberKind
  type : TypeDescription
  name : Identifier

namespace MemberDescription

/-- What stands behind the name: a semicolon, and the parentheses of a method before it. -/
def ending (member : MemberDescription) : List Char :=
  match member.kind with
  | .field => [';']
  | .method => ['(', ')', ';']

/-- The declaration of the member behind its mark, such as `[[refl]] int x; ` for a field and
`[[refl]] int f(); ` for a method. -/
def source (member : MemberDescription) : List Char :=
  markText ++ ' ' :: member.type.source ++ ' ' :: member.name.chars ++ member.ending ++ [' ']

end MemberDescription

structure ClassDescription where
  name : Identifier
  ne_class : name.text ≠ "class"
  members : List MemberDescription

def classText : List Char :=
  "class".toList

namespace ClassDescription

/-- The declaration of the class on a line of its own: `class [[refl]] Name { `, the members, and
`};` with a line feed. -/
def source (decl : ClassDescription) : List Char :=
  classText ++ ' ' :: markText ++ ' ' :: decl.name.chars ++ [' ', '{', ' '] ++
    decl.members.flatMap MemberDescription.source ++ ['}', ';', '\n']

def memberNames (decl : ClassDescription) (kind : MemberKind) : List String :=
  (decl.members.filter (·.kind == kind)).map (·.name.text)

/-- The record that the description stands for. -/
def record (decl : ClassDescription) : ClassRecord where
  name := decl.name.text
  fields := (decl.memberNames .field).eraseDups
  methods := (decl.memberNames .method).eraseDups
  bases := []
  isComponent := false

end ClassDescription

def unitText (classes : List ClassDescription) : List Char :=
  classes.flatMap ClassDescription.source

end Reflector
