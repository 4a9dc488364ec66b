import Reflector.Source.Literal
/-!
# Comments

A source text is a sequence of lexemes: comments, literals and single characters. Removing the
comments keeps the other lexemes as they are; a block comment leaves one space behind, so that its
neighbours stay apart, and a line comment leaves nothing, its line break being no part of it.
-/

namespace Reflector.Source

inductive Lexeme where
  /-- A comment from two slashes to the end of its line. -/
  | lineComment (text : List Char)
  /-- A comment from a slash and a star to the next star and slash, or to the end of the text. -/
  | blockComment (text : List Char)
  /-- A string or character literal with its quotes. -/
  | literal (text : List Char)
  | plain (c : Char)
deriving DecidableEq, Repr

namespace Lexeme

def text : Lexeme → List Char
  | lineComment t | blockComment t | literal t => t
  | plain c => [c]

/-- What is left of the lexeme when comments are removed. -/
def uncommented : Lexeme → List Char
  | lineComment _ => []
  | blockComment _ => [' ']
  | literal t => t
  | plain c => [c]

def isComment : Lexeme → Bool
  | lineComment _ | blockComment _ => true
  | _ => false

end Lexeme

def isLineBreak (c : Char) : Bool :=
  c == '\n' || c == '\r'

def splitBlockComment : List Char → List Char × List Char
  | [] => ([], [])
  | '*' :: '/' :: rest => (['*', '/'], rest)
  | c :: rest =>
    let (comment, after) := splitBlockComment rest
    (c :: comment, after)

@[simp] theorem splitBlockComment_append (cs : List Char) :
    (splitBlockComment cs).1 ++ (splitBlockComment cs).2 = cs := by
  fun_induction splitBlockComment cs <;> simp_all

/-- The first lexeme of a nonempty text and the text after it. -/
def firstLexeme (lead : Lead) (c : Char) (rest : List Char) : Lexeme × List Char :=
  if lead.opens c then
    let (literal, after) := splitLiteral c rest
    (.literal (c :: literal), after)
  else match c, rest with
    | '/', '/' :: rest =>
      let inLine := fun c => !isLineBreak c
      (.lineComment ('/' :: '/' :: rest.takeWhile inLine), rest.dropWhile inLine)
    | '/', '*' :: rest =>
      let (comment, after) := splitBlockComment rest
      (.blockComment ('/' :: '*' :: comment), after)
    | c, rest => (.plain c, rest)

theorem text_firstLexeme (lead : Lead) (c : Char) (rest : List Char) :
    (firstLexeme lead c rest).1.text ++ (firstLexeme lead c rest).2 = c :: rest := by
  unfold firstLexeme
  split
  · simp [Lexeme.text]
  · split <;> simp [Lexeme.text]

theorem length_firstLexeme_le (lead : Lead) (c : Char) (rest : List Char) :
    (firstLexeme lead c rest).2.length ≤ rest.length := by
  have h := congrArg List.length (text_firstLexeme lead c rest)
  have : 0 < (firstLexeme lead c rest).1.text.length := by
    unfold firstLexeme
    split
    · simp [Lexeme.text]
    · split <;> simp [Lexeme.text]
  simp only [List.length_append, List.length_cons] at h
  omega

/-- The lexemes of a text that follows the given lead. -/
def lexemes (lead : Lead) : List Char → List Lexeme
  | [] => []
  | c :: rest =>
    have := length_firstLexeme_le lead c rest
    let first := firstLexeme lead c rest
    first.1 :: lexemes (lead.after first.1.text) first.2
termination_by cs => cs.length

@[simp] theorem lexemes_nil (lead : Lead) : lexemes lead [] = [] := by
  simp [lexemes]

theorem lexemes_cons (lead : Lead) (c : Char) (rest : List Char) :
    lexemes lead (c :: rest) = (firstLexeme lead c rest).1 ::
      lexemes (lead.after (firstLexeme lead c rest).1.text) (firstLexeme lead c rest).2 := by
  simp [lexemes]

theorem flatMap_text_lexemes (lead : Lead) (cs : List Char) :
    (lexemes lead cs).flatMap Lexeme.text = cs := by
  fun_induction lexemes lead cs with
  | case1 => rfl
  | case2 lead c rest _ first ih =>
    simp only [List.flatMap_cons]
    rw [ih]
    exact text_firstLexeme lead c rest

def withoutComments (cs : List Char) : List Char :=
  (lexemes .none cs).flatMap Lexeme.uncommented

end Reflector.Source
