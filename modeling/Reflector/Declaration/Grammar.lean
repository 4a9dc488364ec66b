import Reflector.Class.Description
import Reflector.Declaration.Head

namespace Reflector

open Text

/-- The text behind the opening brackets of an attribute, through the first two closing ones. -/
def ClosesAttribute (text : List Char) : Prop :=
  ∃ inside, text = inside ++ [']', ']'] ∧ ¬ [']', ']'] <:+: inside ++ [']']

/-- White space and attributes, in any number and order. -/
inductive TokenGap : List Char → Prop
  | nil : TokenGap []
  | blank {c : Char} {gap : List Char} : isGapChar c = true → TokenGap gap → TokenGap (c :: gap)
  | bracketed {text gap : List Char} : ClosesAttribute text → TokenGap gap →
      TokenGap ('[' :: '[' :: text ++ gap)

def parenCount (text : List Char) : Int :=
  text.count '(' - text.count ')'

/-- How often the character stands behind as many closing as opening parentheses. -/
def countOutside (c : Char) (text : List Char) : Nat :=
  (List.range text.length).countP fun i => text[i]? == some c && parenCount (text.take i) == 0

/-- Opening angle brackets less closing ones, those inside parentheses left out. -/
def angleCount (text : List Char) : Int :=
  countOutside '<' text - countOutside '>' text

/-- A template argument list: it ends with the first closing bracket that brings the count of its
brackets to zero. -/
structure IsAngleList (text : List Char) : Prop where
  bracketed : ∃ inside, text = '<' :: inside ++ ['>']
  unbroken : ∀ c ∈ text, c ≠ ';' ∧ c ≠ '{' ∧ c ≠ '}'
  balanced : angleCount text = 0
  first : ∀ front, front ++ ['>'] <+: text → front ++ ['>'] ≠ text →
    angleCount (front ++ ['>']) ≠ 0

/-- Identifiers joined by double colons, with white space around each of these if any. -/
inductive IsQualified : List Char → Prop
  | identifier {word : List Char} : isIdentifier word = true → IsQualified word
  | join {word gap gap' more : List Char} : isIdentifier word = true →
      (∀ c ∈ gap, isGapChar c = true) → (∀ c ∈ gap', isGapChar c = true) → IsQualified more →
      IsQualified (word ++ gap ++ [':', ':'] ++ gap' ++ more)

/-- A qualified identifier, which may begin with a double colon. -/
inductive IsQualifiedName : List Char → Prop
  | relative {text : List Char} : IsQualified text → IsQualifiedName text
  | absolute {gap more : List Char} : (∀ c ∈ gap, isGapChar c = true) → IsQualified more →
      IsQualifiedName ([':', ':'] ++ gap ++ more)

/-- A qualified identifier before this text goes on neither with a character nor with a double
colon. -/
def StopsName (after : List Char) : Prop :=
  (∀ c ∈ after.head?, isNameChar c = false) ∧ ¬ [':', ':'] <+: after.dropWhile isGapChar

/-- The token has one of the three forms, and with the text `after` behind it goes no further. -/
def Token.Stands (after : List Char) : Token → Prop
  | sign c => c = '*' ∨ c = '&'
  | angles text => IsAngleList text
  | name text => IsQualifiedName text ∧ StopsName after ∧ text ≠ operatorWord ∧
      ¬ ':' :: ':' :: operatorWord <:+ text

/-- A text consists of these tokens, each behind a gap, with the text `after` behind the last. -/
inductive Tokenizes (after : List Char) : List Token → List Char → Prop
  | nil : Tokenizes after [] []
  | cons {gap text : List Char} {token : Token} {tokens : List Token} : TokenGap gap →
      token.Stands (text ++ after) → Tokenizes after tokens text →
      Tokenizes after (token :: tokens) (gap ++ token.text ++ text)

/-- A member declared at a byte offset of a text: the tokens of its type, the declared name, and a
gap before the terminator. -/
structure DeclaredMember (cs : List Char) (pos : Nat) where
  before : List Char
  types : List Token
  /-- The text of the type, and the gap behind it. -/
  front : List Char
  name : List Char
  gap : List Char
  terminator : Char
  after : List Char
  text_eq : cs = before ++ front ++ name ++ gap ++ terminator :: after
  pos_eq : byteLength before = pos
  types_ne_nil : types ≠ []
  tokenizes : Tokenizes (gap ++ terminator :: after) (types ++ [.name name]) (front ++ name)
  tokenGap : TokenGap gap
  terminator_mem : terminator ∈ [';', '=', '{', '(']

namespace DeclaredMember

variable {cs : List Char} {pos : Nat}

def start (member : DeclaredMember cs pos) : Nat :=
  byteLength (member.before ++ member.front)

/-- The offset just past the terminator. -/
def stop (member : DeclaredMember cs pos) : Nat :=
  byteLength (member.before ++ member.front ++ member.name ++ member.gap ++ [member.terminator])

end DeclaredMember

/-- The last component of the identifier is `operator`. It stands alone or behind a double colon, with
this white space between the two. -/
inductive NamesOperator : List Char → List Char → Prop
  | alone : NamesOperator [] operatorWord
  | qualified {blanks : List Char} (scope : List Char) : (∀ c ∈ blanks, isGapChar c = true) →
      NamesOperator blanks (scope ++ [':', ':'] ++ blanks ++ operatorWord)

/-- The head of a declaration at a byte offset of a text, as far as an identifier that names an
operator. -/
structure OperatorHead (cs : List Char) (pos : Nat) where
  before : List Char
  types : List Token
  /-- The text of the tokens before the name. -/
  front : List Char
  gap : List Char
  name : List Char
  /-- The white space right before `operator`. -/
  blanks : List Char
  after : List Char
  text_eq : cs = before ++ front ++ gap ++ name ++ after
  pos_eq : byteLength before = pos
  tokenizes : Tokenizes (gap ++ name ++ after) types front
  tokenGap : TokenGap gap
  isQualifiedName : IsQualifiedName name
  stopsName : StopsName after
  namesOperator : NamesOperator blanks name

/-- The characters that can end a declaration of this kind. -/
def MemberKind.terminators : MemberKind → List Char
  | field => [';', '=', '{']
  | method => ['(']

/-- Behind a mark of the class a member of this kind is declared, with this name and this gap before
its terminator. -/
def ClassBlock.Declares (markNames : List (List Char)) (decl : ClassBlock) (kind : MemberKind)
    (name gap : List Char) : Prop :=
  ∃ pos ∈ decl.markOffsets markNames, ∃ member : DeclaredMember decl.body pos,
    member.terminator ∈ kind.terminators ∧ member.name = name ∧ member.gap = gap

end Reflector
