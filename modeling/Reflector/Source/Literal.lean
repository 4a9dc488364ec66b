/-!
# String and character literals

Where a quote opens a literal and where the literal ends. A double quote always opens one. An
apostrophe opens one unless it stands inside a number, where it separates digits: the run of
letters, digits, underscores, apostrophes and dots before it then starts with a digit.
-/

namespace Reflector.Source

def isNumberChar (c : Char) : Bool :=
  c.isAlphanum || c == '_' || c == '\'' || c == '.'

/-- What the longest run of number characters that ends at a place looks like. -/
inductive Lead where
  /-- There is no such run. -/
  | none
  /-- The run starts with a digit. -/
  | digits
  /-- The run starts with another character. -/
  | word
deriving DecidableEq, Repr

namespace Lead

def next (lead : Lead) (c : Char) : Lead :=
  if isNumberChar c then
    match lead with
    | none => if c.isDigit then digits else word
    | _ => lead
  else none

def after (lead : Lead) (cs : List Char) : Lead :=
  cs.foldl next lead

def opens (lead : Lead) (c : Char) : Bool :=
  c == '"' || (c == '\'' && lead != digits)

@[simp] theorem after_nil (lead : Lead) : lead.after [] = lead := rfl

@[simp] theorem after_cons (lead : Lead) (c : Char) (cs : List Char) :
    lead.after (c :: cs) = (lead.next c).after cs := rfl

@[simp] theorem after_append (lead : Lead) (a b : List Char) :
    lead.after (a ++ b) = (lead.after a).after b := by
  simp [after]

/-- A character outside numbers ends every run, so nothing before it matters. -/
theorem next_of_not_isNumberChar {c : Char} (h : isNumberChar c = false) (lead : Lead) :
    lead.next c = none := by
  simp [next, h]

theorem after_concat_of_not_isNumberChar {c : Char} (h : isNumberChar c = false) (lead : Lead)
    (cs : List Char) : lead.after (cs ++ [c]) = none := by
  simp [next_of_not_isNumberChar h]

end Lead

/-- Splits a text just after an opening `quote` where the literal ends: past the same quote, or
before a line feed, or at the end of the text. A backslash takes the next character with it. -/
def splitLiteral (quote : Char) : List Char → List Char × List Char
  | [] => ([], [])
  | ['\\'] => (['\\'], [])
  | '\\' :: c :: rest =>
    let (literal, after) := splitLiteral quote rest
    ('\\' :: c :: literal, after)
  | c :: rest =>
    if c = '\n' then ([], c :: rest)
    else if c = quote then ([c], rest)
    else
      let (literal, after) := splitLiteral quote rest
      (c :: literal, after)

@[simp] theorem splitLiteral_append (quote : Char) (cs : List Char) :
    (splitLiteral quote cs).1 ++ (splitLiteral quote cs).2 = cs := by
  fun_induction splitLiteral quote cs <;> simp_all

theorem length_splitLiteral_le (quote : Char) (cs : List Char) :
    (splitLiteral quote cs).2.length ≤ cs.length := by
  have h := congrArg List.length (splitLiteral_append quote cs)
  rw [List.length_append] at h
  omega

end Reflector.Source
