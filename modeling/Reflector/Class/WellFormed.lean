import Reflector.Class.Locator
/-!
# Well-formed units

A unit is a row of classes with gaps around them, each class a header and a block. Blocks nest to any
depth, and the braces and quotes inside literals are part of the literals.
-/

namespace Reflector

open Source Text

/-- What can stand between the quotes of a closed literal: escapes, and characters other than the
quote, the backslash and the line feed. -/
inductive LiteralBody (quote : Char) : List Char → Prop
  | nil : LiteralBody quote []
  | char {c : Char} {body : List Char} : c ≠ '\\' → c ≠ '\n' → c ≠ quote → LiteralBody quote body →
      LiteralBody quote (c :: body)
  | escape (c : Char) {body : List Char} : LiteralBody quote body →
      LiteralBody quote ('\\' :: c :: body)

/-- What can stand in a block behind the character `left`: characters other than braces and quotes,
closed literals, and blocks. A character literal does not stand behind a number character. -/
inductive NestedText : Char → List Char → Prop
  | nil {left : Char} : NestedText left []
  | plain {left c : Char} {text : List Char} : isFlat c = true → NestedText c text →
      NestedText left (c :: text)
  | string {left : Char} {body text : List Char} : LiteralBody '"' body → NestedText '"' text →
      NestedText left ('"' :: body ++ '"' :: text)
  | char {left : Char} {body text : List Char} : isNumberChar left = false →
      LiteralBody '\'' body → NestedText '\'' text → NestedText left ('\'' :: body ++ '\'' :: text)
  | block {left : Char} {inside text : List Char} : NestedText '{' inside → NestedText '}' text →
      NestedText left ('{' :: inside ++ '}' :: text)

/-- A class whose header can be read and whose block closes. -/
structure WellFormedClass (keywords : List (List Char)) where
  name : String
  keyword : List Char
  /-- What stands between the keyword and the opening brace. -/
  tail : List Char
  /-- What stands between the braces of the block. -/
  inside : List Char
  keyword_mem : keyword ∈ keywords
  tail_begins : ∃ c ∈ tail.head?, isWord c = false
  tail_plain : ∀ c ∈ tail, c ∉ ['{', '}', ';', '"', '\'']
  headerName_eq : headerName keywords (keyword ++ tail ++ ['{']) = .ok name
  nested : NestedText '{' inside

namespace WellFormedClass

variable {keywords : List (List Char)}

def header (decl : WellFormedClass keywords) : List Char :=
  decl.keyword ++ decl.tail ++ ['{']

def body (decl : WellFormedClass keywords) : List Char :=
  decl.header ++ decl.inside ++ ['}']

end WellFormedClass

/-- A text in which no class keyword stands as a word of its own. No word ends where it ends. -/
structure ClassGap (keywords : List (List Char)) where
  text : List Char
  no_keyword : ∀ before keyword after, text = before ++ keyword ++ after → keyword ∈ keywords →
    isWordBoundary before.getLast? keyword.head? = true →
      isWordBoundary keyword.getLast? after.head? = false
  ends : ∀ c ∈ text.getLast?, isWord c = false

def ClassGap.ofNotInfix {keywords : List (List Char)} (text : List Char)
    (hfree : ∀ keyword ∈ keywords, ¬ keyword <:+: text)
    (hends : ∀ c ∈ text.getLast?, isWord c = false) : ClassGap keywords where
  text := text
  no_keyword before keyword after htext hm := by
    exact absurd ⟨before, after, htext.symm⟩ (hfree keyword hm)
  ends := hends

/-- Classes with a gap before the first one and a gap behind each. -/
structure WellFormedUnit (keywords : List (List Char)) where
  gap : ClassGap keywords
  classes : List (WellFormedClass keywords × ClassGap keywords)

namespace WellFormedUnit

variable {keywords : List (List Char)}

def classesText (classes : List (WellFormedClass keywords × ClassGap keywords)) : List Char :=
  classes.flatMap fun (decl, gap) => decl.body ++ gap.text

def text (unit : WellFormedUnit keywords) : List Char :=
  unit.gap.text ++ classesText unit.classes

/-- The class declarations of the unit in order, the first of them at the given offset. -/
def blocksFrom (offset : Nat) :
    List (WellFormedClass keywords × ClassGap keywords) → List ClassBlock
  | [] => []
  | (decl, gap) :: more =>
    ⟨decl.name, decl.header, decl.body, offset⟩ ::
      blocksFrom (offset + byteLength (decl.body ++ gap.text)) more

def blocks (unit : WellFormedUnit keywords) : List ClassBlock :=
  blocksFrom (byteLength unit.gap.text) unit.classes

end WellFormedUnit

end Reflector
