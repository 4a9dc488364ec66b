import Reflector.Toml.Quoted
import Reflector.Toml.Value
/-!
# TOML dates and times

A date and a time of day may stand alone or together, with a letter or one space between them. The
distance from universal time needs both. Every part has a fixed count of digits, and the day must
exist in its month. How far hours and minutes may go is a matter of the notation: a literal keeps to
the clock, a date in a string may go somewhat beyond.
-/

namespace Reflector.Toml

open Text

def fixed? (width low high : Nat) : Reader Nat := fun cs => do
  let digits := cs.take width
  guard (digits.length = width && digits.all Char.isDigit)
  let n := ofDigits 10 digits
  guard (low ≤ n && n ≤ high)
  return (n, cs.drop width)

def isLeapYear (year : Nat) : Bool :=
  year % 4 == 0 && (year % 100 != 0 || year % 400 == 0)

def monthLength (year month : Nat) : Nat :=
  if month = 2 then if isLeapYear year then 29 else 28
  else if month = 4 || month = 6 || month = 9 || month = 11 then 30
  else 31

def date? : Reader Date := fun cs => do
  let (year, cs) ← fixed? 4 0 9999 cs
  let cs ← after? ['-'] cs
  let (month, cs) ← fixed? 2 1 12 cs
  let cs ← after? ['-'] cs
  let (day, cs) ← fixed? 2 1 (monthLength year month) cs
  return (⟨year, month, day⟩, cs)

structure ClockBounds where
  hour : Nat
  /-- The last hour of a distance from universal time. -/
  zoneHour : Nat
  /-- The last minute of a distance from universal time. -/
  zoneMinute : Nat
deriving DecidableEq, Repr

def ClockBounds.literal : ClockBounds := ⟨23, 23, 59⟩

def ClockBounds.spelled : ClockBounds := ⟨24, 99, 99⟩

def hourMinute? (lastHour lastMinute : Nat) : Reader (Nat × Nat) := fun cs => do
  let (hour, cs) ← fixed? 2 0 lastHour cs
  let cs ← after? [':'] cs
  let (minute, cs) ← fixed? 2 0 lastMinute cs
  return ((hour, minute), cs)

/-- Reads a time of day. A minute may have a sixty-first second. -/
def time? (bounds : ClockBounds) : Reader Time := fun cs => do
  let ((hour, minute), cs) ← hourMinute? bounds.hour 59 cs
  let cs ← after? [':'] cs
  let (second, cs) ← fixed? 2 0 60 cs
  match cs with
  | '.' :: tail =>
    let fraction := tail.takeWhile Char.isDigit
    if fraction = [] then return (⟨hour, minute, second, []⟩, cs)
    else return (⟨hour, minute, second, fraction⟩, tail.dropWhile Char.isDigit)
  | _ => return (⟨hour, minute, second, []⟩, cs)

/-- Reads a distance from universal time, which is a day at most. -/
def zone? (bounds : ClockBounds) : Reader ZoneOffset
  | [] => none
  | c :: cs =>
    if c == 'Z' || c == 'z' then some (.utc, cs)
    else if c == '+' || c == '-' then do
      let ((hour, minute), rest) ← hourMinute? bounds.zoneHour bounds.zoneMinute cs
      let minutes := hour * 60 + minute
      guard (minutes ≤ 24 * 60)
      return (.minutes (if c == '-' then -(minutes : Int) else minutes), rest)
    else none

def timeOfDate? (bounds : ClockBounds) : Reader Time
  | [] => none
  | c :: cs => if c == 'T' || c == 't' || c == ' ' then time? bounds cs else none

def dateTime? (bounds : ClockBounds) : Reader DateTime := fun cs =>
  match date? cs with
  | none => (time? bounds cs).map fun (time, rest) => (⟨none, some time, none⟩, rest)
  | some (date, rest) =>
    match timeOfDate? bounds rest with
    | none => some (⟨some date, none, none⟩, rest)
    | some (time, rest) =>
      match zone? bounds rest with
      | none => some (⟨some date, some time, none⟩, rest)
      | some (zone, rest) => some (⟨some date, some time, some zone⟩, rest)

def DateTime.ofString? (s : String) : Option DateTime :=
  match dateTime? .spelled s.toList with
  | some (dateTime, []) => some dateTime
  | _ => none

end Reflector.Toml
