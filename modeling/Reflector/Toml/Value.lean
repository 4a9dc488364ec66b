namespace Reflector.Toml

structure Date where
  year : Nat
  month : Nat
  day : Nat
deriving DecidableEq, Repr

/-- A time of day. The fraction of a second is kept as its decimal digits. -/
structure Time where
  hour : Nat
  minute : Nat
  second : Nat
  fraction : List Char := []
deriving DecidableEq, Repr

/-- A distance from universal time. -/
inductive ZoneOffset where
  | utc
  | minutes (m : Int)
deriving DecidableEq, Repr

/-- A date, a time or both, and a distance from universal time if both are there. -/
structure DateTime where
  date : Option Date
  time : Option Time
  zone : Option ZoneOffset
deriving DecidableEq, Repr

inductive Decimal where
  /-- The number `mantissa * 10 ^ exponent`, negated if so asked. -/
  | finite (negative : Bool) (mantissa : Nat) (exponent : Int)
  | infinity (negative : Bool)
  | nan
deriving DecidableEq, Repr

inductive Value where
  | string (s : String)
  | integer (n : Int)
  | float (d : Decimal)
  | boolean (b : Bool)
  | dateTime (d : DateTime)
  | array (items : List Value)
  | table (entries : List (String × Value))
deriving Repr, Inhabited

mutual

def Value.decEq : (a b : Value) → Decidable (a = b)
  | .string s, .string t => decidable_of_iff (s = t) (by rw [Value.string.injEq])
  | .integer m, .integer n => decidable_of_iff (m = n) (by rw [Value.integer.injEq])
  | .float d, .float e => decidable_of_iff (d = e) (by rw [Value.float.injEq])
  | .boolean b, .boolean c => decidable_of_iff (b = c) (by rw [Value.boolean.injEq])
  | .dateTime d, .dateTime e => decidable_of_iff (d = e) (by rw [Value.dateTime.injEq])
  | .array xs, .array ys =>
    have := Value.decEqItems xs ys
    decidable_of_iff (xs = ys) (by rw [Value.array.injEq])
  | .table xs, .table ys =>
    have := Value.decEqEntries xs ys
    decidable_of_iff (xs = ys) (by rw [Value.table.injEq])
  | .string _, .integer _ | .string _, .float _ | .string _, .boolean _ | .string _, .dateTime _
  | .string _, .array _ | .string _, .table _ => isFalse nofun
  | .integer _, .string _ | .integer _, .float _ | .integer _, .boolean _ | .integer _, .dateTime _
  | .integer _, .array _ | .integer _, .table _ => isFalse nofun
  | .float _, .string _ | .float _, .integer _ | .float _, .boolean _ | .float _, .dateTime _
  | .float _, .array _ | .float _, .table _ => isFalse nofun
  | .boolean _, .string _ | .boolean _, .integer _ | .boolean _, .float _ | .boolean _, .dateTime _
  | .boolean _, .array _ | .boolean _, .table _ => isFalse nofun
  | .dateTime _, .string _ | .dateTime _, .integer _ | .dateTime _, .float _ | .dateTime _, .boolean _
  | .dateTime _, .array _ | .dateTime _, .table _ => isFalse nofun
  | .array _, .string _ | .array _, .integer _ | .array _, .float _ | .array _, .boolean _
  | .array _, .dateTime _ | .array _, .table _ => isFalse nofun
  | .table _, .string _ | .table _, .integer _ | .table _, .float _ | .table _, .boolean _
  | .table _, .dateTime _ | .table _, .array _ => isFalse nofun

def Value.decEqItems : (xs ys : List Value) → Decidable (xs = ys)
  | [], [] => isTrue rfl
  | [], _ :: _ => isFalse nofun
  | _ :: _, [] => isFalse nofun
  | x :: xs, y :: ys =>
    have := Value.decEq x y
    have := Value.decEqItems xs ys
    decidable_of_iff (x = y ∧ xs = ys) (by rw [List.cons.injEq])

def Value.decEqEntries : (xs ys : List (String × Value)) → Decidable (xs = ys)
  | [], [] => isTrue rfl
  | [], _ :: _ => isFalse nofun
  | _ :: _, [] => isFalse nofun
  | (k, x) :: xs, (l, y) :: ys =>
    have := Value.decEq x y
    have := Value.decEqEntries xs ys
    decidable_of_iff ((k = l ∧ x = y) ∧ xs = ys) (by rw [List.cons.injEq, Prod.mk.injEq])

end

instance : DecidableEq Value := Value.decEq

namespace Value

def string? : Value → Option String
  | string s => some s
  | _ => none

def strings? : Value → Option (List String)
  | array items => items.mapM string?
  | _ => none

end Value

end Reflector.Toml
