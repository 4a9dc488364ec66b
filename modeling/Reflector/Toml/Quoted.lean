import Reflector.Toml.Layout
/-!
# TOML strings

A string stands between quotes. Double quotes allow escapes, single ones take every character as it
is. Three quotes open a string that may run over lines; its end may carry up to two quotes more,
which belong to the text.
-/

namespace Reflector.Toml

open Text

def digitValue (c : Char) : Nat :=
  if c.isDigit then c.toNat - '0'.toNat
  else if 'a' ≤ c then c.toNat - 'a'.toNat + 10
  else c.toNat - 'A'.toNat + 10

def isHexDigit (c : Char) : Bool :=
  c.isDigit || ('a' ≤ c && c ≤ 'f') || ('A' ≤ c && c ≤ 'F')

def ofDigits (base : Nat) (digits : List Char) : Nat :=
  digits.foldl (fun n c => n * base + digitValue c) 0

/-- Reads a character by its number, given in a fixed count of hexadecimal digits. -/
def codePoint? (width : Nat) : Reader Char := fun cs =>
  let digits := cs.take width
  let n := ofDigits 16 digits
  if digits.length = width && digits.all isHexDigit && (n < 0xD800 || (0xDFFF < n && n < 0x110000))
  then some (Char.ofNat n, cs.drop width)
  else none

def escape? : Reader Char
  | 'b' :: cs => some ('\x08', cs)
  | 't' :: cs => some ('\t', cs)
  | 'n' :: cs => some ('\n', cs)
  | 'f' :: cs => some ('\x0c', cs)
  | 'r' :: cs => some ('\r', cs)
  | '"' :: cs => some ('"', cs)
  | '\\' :: cs => some ('\\', cs)
  | 'u' :: cs => codePoint? 4 cs
  | 'U' :: cs => codePoint? 8 cs
  | _ => none

theorem length_codePoint?_le {width : Nat} {cs rest : List Char} {c : Char}
    (h : codePoint? width cs = some (c, rest)) : rest.length ≤ cs.length := by
  simp only [codePoint?] at h
  split at h
  · simp only [Option.some.injEq, Prod.mk.injEq] at h
    simp [← h.2]
  · contradiction

theorem length_escape?_lt {cs rest : List Char} {c : Char} (h : escape? cs = some (c, rest)) :
    rest.length < cs.length := by
  unfold escape? at h
  split at h
  case h_8 | h_9 =>
    have := length_codePoint?_le h
    simp only [List.length_cons]
    omega
  all_goals simp_all

/-- The text after an escaped line break: the break, the spaces before it and all spaces and breaks
behind it. -/
def afterJoin? (cs : List Char) : Option (List Char) :=
  (afterNewline? (skipSpace cs)).map skipLines

theorem length_afterJoin?_lt {cs rest : List Char} (h : afterJoin? cs = some rest) :
    rest.length < cs.length := by
  obtain ⟨tail, ht, rfl⟩ := Option.map_eq_some_iff.1 h
  have h₁ := length_afterNewline?_lt ht
  have h₂ := length_skipLines_le tail
  have h₃ : (skipSpace cs).length ≤ cs.length := (List.dropWhile_sublist isSpace).length_le
  omega

/-- A way to write strings. -/
structure QuoteStyle where
  quote : Char
  /-- A backslash begins an escape. -/
  escapes : Bool
  /-- The quotes are tripled and the string may run over lines. -/
  multiline : Bool
deriving DecidableEq, Repr

namespace QuoteStyle

/-- Reads the closing quotes; answers the quotes among them that still belong to the text. -/
def close? (style : QuoteStyle) : Reader (List Char) := fun cs =>
  let run := (cs.takeWhile (· == style.quote)).length
  if style.multiline then
    if run < 3 then none
    else
      let more := min (run - 3) 2
      some (List.replicate more style.quote, cs.drop (3 + more))
  else if run = 0 then none
  else some ([], cs.drop 1)

def text? (style : QuoteStyle) (cs : List Char) : Option (List Char × List Char) :=
  match style.close? cs, cs with
  | some closed, _ => some closed
  | none, [] => none
  | none, c :: rest =>
    if style.escapes && c == '\\' then
      match hj : if style.multiline then afterJoin? rest else none with
      | some tail =>
        have : tail.length < rest.length := by
          split at hj
          · exact length_afterJoin?_lt hj
          · contradiction
        style.text? tail
      | none =>
        match he : escape? rest with
        | none => none
        | some (escaped, tail) =>
          have := length_escape?_lt he
          (style.text? tail).map fun (text, after) => (escaped :: text, after)
    else
      match hn : if style.multiline then afterNewline? (c :: rest) else none with
      | some tail =>
        have : tail.length < rest.length + 1 := by
          split at hn
          · exact length_afterNewline?_lt hn
          · contradiction
        (style.text? tail).map fun (text, after) => ('\n' :: text, after)
      | none =>
        if isTextChar c then (style.text? rest).map fun (text, after) => (c :: text, after)
        else none
termination_by cs.length

end QuoteStyle

def QuoteStyle.string? (style : QuoteStyle) : Reader String := fun cs =>
  (style.text? cs).map fun (text, rest) => (String.ofList text, rest)

def lineString? : Reader String
  | '"' :: cs => QuoteStyle.string? ⟨'"', true, false⟩ cs
  | '\'' :: cs => QuoteStyle.string? ⟨'\'', false, false⟩ cs
  | _ => none

/-- Reads a string of any style. A line break right behind three opening quotes is left out. -/
def string? : Reader String := fun cs =>
  match cs with
  | '"' :: '"' :: '"' :: cs =>
    QuoteStyle.string? ⟨'"', true, true⟩ ((afterNewline? cs).getD cs)
  | '\'' :: '\'' :: '\'' :: cs =>
    QuoteStyle.string? ⟨'\'', false, true⟩ ((afterNewline? cs).getD cs)
  | _ => lineString? cs

end Reflector.Toml
