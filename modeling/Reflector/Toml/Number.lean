import Reflector.Toml.Quoted
import Reflector.Toml.Value
/-!
# TOML numbers

Integers have 64 bits and may be written in base ten, or without a sign in base sixteen, eight or
two. A float has a fraction or an exponent. Single underscores may stand between digits. A float too
large for a double is refused, unless it is negative.
-/

namespace Reflector.Toml

open Text

/-- The digits at the head of a text, each of which may have an underscore before it. -/
def moreDigits (isDigit : Char → Bool) : List Char → List Char × List Char
  | [] => ([], [])
  | '_' :: c :: cs =>
    if isDigit c then
      let (digits, rest) := moreDigits isDigit cs
      (c :: digits, rest)
    else ([], '_' :: c :: cs)
  | c :: cs =>
    if isDigit c then
      let (digits, rest) := moreDigits isDigit cs
      (c :: digits, rest)
    else ([], c :: cs)

/-- Reads digits with single underscores between them; answers the digits alone. -/
def digits? (isDigit : Char → Bool) : Reader (List Char)
  | c :: cs =>
    if isDigit c then
      let (digits, rest) := moreDigits isDigit cs
      some (c :: digits, rest)
    else none
  | [] => none

/-- Reads the digits of a whole number in base ten: a zero stands alone. -/
def wholeDigits? : Reader (List Char)
  | '0' :: cs => some (['0'], cs)
  | cs => digits? Char.isDigit cs

def sign : List Char → Bool × List Char
  | '-' :: cs => (true, cs)
  | '+' :: cs => (false, cs)
  | cs => (false, cs)

def signed (negative : Bool) (n : Nat) : Int :=
  if negative then -(n : Int) else n

/-- Integers are less than this, and not less than its negative. -/
def integerBound : Nat := 0x8000000000000000

def integer? : Reader Int := fun cs =>
  let inBase := fun (base : Nat) (isDigit : Char → Bool) (cs : List Char) => do
    let (digits, rest) ← digits? isDigit cs
    let n := ofDigits base digits
    guard (n < integerBound)
    return ((n : Int), rest)
  match cs with
  | '0' :: 'x' :: cs => inBase 16 isHexDigit cs
  | '0' :: 'o' :: cs => inBase 8 (fun c => '0' ≤ c && c ≤ '7') cs
  | '0' :: 'b' :: cs => inBase 2 (fun c => c == '0' || c == '1') cs
  | _ => do
    let (negative, cs) := sign cs
    let (digits, rest) ← wholeDigits? cs
    let n := signed negative (ofDigits 10 digits)
    guard (-integerBound ≤ n && n < integerBound)
    return (n, rest)

def fraction? : Reader (List Char)
  | '.' :: cs => digits? Char.isDigit cs
  | _ => none

def exponent? (cs : List Char) : Option (Int × List Char) :=
  match cs with
  | [] => none
  | c :: cs => do
    guard (c == 'e' || c == 'E')
    let (negative, cs) := sign cs
    let (digits, rest) ← digits? Char.isDigit cs
    return (signed negative (ofDigits 10 digits), rest)

/-- The number with these decimal digits, times that power of ten, rounds to a finite double. The
powers far off are told by the count of digits alone, so that no large number is computed. -/
def fitsDouble (digits : List Char) (exponent : Int) : Bool :=
  let digits := digits.dropWhile (· == '0')
  let bound := Nat.pow 2 1024 - Nat.pow 2 970
  if digits = [] || digits.length + exponent ≤ 308 then true
  else if 310 ≤ digits.length + exponent then false
  else ofDigits 10 digits * Nat.pow 10 exponent.toNat < bound * Nat.pow 10 (-exponent).toNat

def float? : Reader Decimal := fun cs => do
  let (negative, cs) := sign cs
  if let some rest := after? ['i', 'n', 'f'] cs then return (.infinity negative, rest)
  if let some rest := after? ['n', 'a', 'n'] cs then return (.nan, rest)
  let (whole, cs) ← wholeDigits? cs
  let (fraction, power, rest) ←
    match fraction? cs with
    | some (fraction, cs) =>
      match exponent? cs with
      | some (power, rest) => some (fraction, power, rest)
      | none => some (fraction, 0, cs)
    | none => (exponent? cs).map fun (power, rest) => ([], power, rest)
  let digits := whole ++ fraction
  let exponent := power - fraction.length
  guard (negative || fitsDouble digits exponent)
  return (.finite negative (ofDigits 10 digits) exponent, rest)

end Reflector.Toml
