import Reflector.Class.Description
import Reflector.Class.Header

namespace Reflector

open Text

/-- Blanks and attributes, in any number and order. -/
inductive HeaderGap : List Char → Prop
  | nil : HeaderGap []
  | blank {c : Char} {gap : List Char} : isBlank c = true → HeaderGap gap → HeaderGap (c :: gap)
  | bracketed {inside gap : List Char} : ']' ∉ inside → HeaderGap gap →
      HeaderGap (['[', '['] ++ inside ++ [']', ']'] ++ gap)

/-- A word that can stand between the keyword and the name, such as a macro. -/
structure IsHeaderWord (word : List Char) : Prop where
  ne_nil : word ≠ []
  plain : ∀ c ∈ word, isBlank c = false ∧ c ∉ ['[', ']', ':', '{']

inductive HeaderWords : List Char → Prop
  | nil : HeaderWords []
  | cons {gap word words : List Char} : HeaderGap gap → gap ≠ [] → IsHeaderWord word →
      HeaderWords words → HeaderWords (gap ++ word ++ words)

/-- Every longest run of colons has two of them. -/
def ColonsInPairs (text : List Char) : Prop :=
  ∀ before n after, text = before ++ List.replicate n ':' ++ after → 0 < n →
    before.getLast? ≠ some ':' → after.head? ≠ some ':' → n = 2

structure IsClassName (keywords : List (List Char)) (name : List Char) : Prop where
  ne_nil : name ≠ []
  plain : ∀ c ∈ name, isBlank c = false ∧ c ∉ ['[', ']', '{']
  not_keyword : name ∉ keywords
  colonsInPairs : ColonsInPairs name
  not_ends : name.getLast? ≠ some ':'

/-- The opening brace, or a base clause through an opening brace. -/
inductive HeaderEnding : List Char → Prop
  | brace : HeaderEnding ['{']
  | bases {text : List Char} : text.head? ≠ some ':' → text.getLast? = some '{' →
      HeaderEnding (':' :: text)

/-- A header with one of the keywords, and the name that stands in it, if any. -/
inductive SpellsHeader (keywords : List (List Char)) : Option (List Char) → List Char → Prop
  | named {keyword words gap name trail ending : List Char} : keyword ∈ keywords →
      HeaderWords words → HeaderGap gap → gap ≠ [] → IsClassName keywords name → HeaderGap trail →
      HeaderEnding ending →
      SpellsHeader keywords (some name) (keyword ++ words ++ gap ++ name ++ trail ++ ending)
  | nameless {keyword gap ending : List Char} : keyword ∈ keywords → HeaderGap gap →
      HeaderEnding ending → SpellsHeader keywords none (keyword ++ gap ++ ending)

/-- A header with a keyword of one or more words, and nothing but a gap behind it. -/
structure AnonymousHeader (keywords : List (List Char)) where
  /-- The words of the keyword before the last one. -/
  front : List (List Char)
  last : List Char
  gap : List Char
  ending : List Char
  isIdentifier_front : ∀ word ∈ front, isIdentifier word = true
  isIdentifier_last : isIdentifier last = true
  keyword_mem : (front.flatMap fun word => word ++ [' ']) ++ last ∈ keywords
  headerGap : HeaderGap gap
  headerEnding : HeaderEnding ending

namespace AnonymousHeader

variable {keywords : List (List Char)}

def keyword (header : AnonymousHeader keywords) : List Char :=
  (header.front.flatMap fun word => word ++ [' ']) ++ header.last

def text (header : AnonymousHeader keywords) : List Char :=
  header.keyword ++ header.gap ++ header.ending

end AnonymousHeader

end Reflector
