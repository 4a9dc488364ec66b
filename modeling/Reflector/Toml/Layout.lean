import Reflector.Text.Pattern

namespace Reflector.Toml

/-- A way to read something from the head of a text; it answers what it read and the rest. -/
abbrev Reader (α : Type) := List Char → Option (α × List Char)

def isSpace (c : Char) : Bool :=
  c == ' ' || c == '\t'

/-- The character may stand in comments and strings: a tab or no control character. -/
def isTextChar (c : Char) : Bool :=
  c == '\t' || (' ' ≤ c && c != '\x7f')

def afterNewline? : List Char → Option (List Char)
  | '\n' :: cs => some cs
  | '\r' :: '\n' :: cs => some cs
  | _ => none

theorem length_afterNewline?_lt {cs rest : List Char} (h : afterNewline? cs = some rest) :
    rest.length < cs.length := by
  unfold afterNewline? at h
  split at h
  · simp_all
  · simp only [Option.some.injEq] at h
    subst h
    simp only [List.length_cons]
    omega
  · contradiction

def skipSpace (cs : List Char) : List Char :=
  cs.dropWhile isSpace

def skipLines : List Char → List Char
  | [] => []
  | '\r' :: '\n' :: cs => skipLines cs
  | c :: cs => if isSpace c || c == '\n' then skipLines cs else c :: cs

theorem length_skipLines_le (cs : List Char) : (skipLines cs).length ≤ cs.length := by
  fun_induction skipLines cs with
  | case1 => simp
  | case2 cs ih => simp only [List.length_cons]; omega
  | case3 c cs _ _ ih => simp only [List.length_cons]; omega
  | case4 => simp

/-- The text after the spaces, line breaks and comments at its head. `comment` tells that the text
begins inside a comment. A character that has no place there is left for the reader to meet. -/
def skipFiller (comment : Bool) : List Char → List Char
  | [] => []
  | '\r' :: '\n' :: cs => skipFiller false cs
  | c :: cs =>
    if c == '\n' then skipFiller false cs
    else if isSpace c || (comment && isTextChar c) then skipFiller comment cs
    else if c == '#' then skipFiller true cs
    else c :: cs

/-- The text after the end of the line: only spaces and a comment may stand before it. -/
def afterLine? (cs : List Char) : Option (List Char) :=
  let tail :=
    match skipSpace cs with
    | '#' :: comment => comment.dropWhile isTextChar
    | tail => tail
  if tail = [] then some [] else afterNewline? tail

end Reflector.Toml
