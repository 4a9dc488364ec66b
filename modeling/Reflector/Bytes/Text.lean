import Reflector.Text.Offset
/-!
# Texts as bytes

A text can be read byte by byte at any index of its UTF-8 encoding, also inside a character. A piece
of it can be cut out only where characters begin and end; every other cut fails.
-/

namespace Reflector.Bytes

open Text

/-- The bytes of a text in UTF-8. -/
def encode (cs : List Char) : List UInt8 :=
  cs.flatMap String.utf8EncodeChar

/-- The byte at an index, as the character that it stands for if it stands for one alone. -/
def at? (bytes : List UInt8) (i : Nat) : Option Char :=
  bytes[i]?.map Char.ofUInt8

/-- The byte left of an index, if the index is not the start of the text. -/
def left? (bytes : List UInt8) (i : Nat) : Option (Option Char) :=
  if i = 0 then some none else (at? bytes (i - 1)).map some

def suffix? (start : Nat) (cs : List Char) : Option (List Char) :=
  (splitAtByte? start cs).map (·.2)

/-- The text between two byte offsets. -/
def slice? (start stop : Nat) (cs : List Char) : Option (List Char) := do
  let (before, _) ← splitAtByte? stop cs
  suffix? start before

theorem lt_of_at? {bytes : List UInt8} {i : Nat} {c : Char} (h : at? bytes i = some c) :
    i < bytes.length := by
  obtain ⟨b, hb, -⟩ := Option.map_eq_some_iff.mp h
  exact (List.getElem?_eq_some_iff.mp hb).1

/-- The first index at or after `i` whose byte is there and lacks the property, or the end. -/
def skipWhile (p : Char → Bool) (bytes : List UInt8) (i : Nat) : Nat :=
  match h : at? bytes i with
  | none => i
  | some c => if p c then skipWhile p bytes (i + 1) else i
termination_by bytes.length - i
decreasing_by
  have := lt_of_at? h
  omega

theorem le_skipWhile (p : Char → Bool) (bytes : List UInt8) (i : Nat) :
    i ≤ skipWhile p bytes i := by
  fun_induction skipWhile p bytes i with
  | case1 => exact Nat.le_refl _
  | case2 i c h hp ih => omega
  | case3 => exact Nat.le_refl _

theorem skipWhile_of_at? {p : Char → Bool} {bytes : List UInt8} {i : Nat} {c : Char}
    (h : at? bytes i = some c) :
    skipWhile p bytes i = if p c then skipWhile p bytes (i + 1) else i := by
  rw [skipWhile.eq_def]
  split <;> simp_all

theorem lt_skipWhile {p : Char → Bool} {bytes : List UInt8} {i : Nat} {c : Char}
    (h : at? bytes i = some c) (hc : p c = true) : i < skipWhile p bytes i := by
  rw [skipWhile_of_at? h, if_pos hc]
  exact le_skipWhile p bytes (i + 1)

/-- The two characters stand at an index and right behind it. The index must not be past the end. -/
def startsWith? (a b : Char) (bytes : List UInt8) (i : Nat) : Option Bool :=
  if i ≤ bytes.length then some (at? bytes i == some a && at? bytes (i + 1) == some b) else none

theorem at?_of_startsWith? {a b : Char} {bytes : List UInt8} {i : Nat}
    (h : startsWith? a b bytes i = some true) :
    at? bytes i = some a ∧ at? bytes (i + 1) = some b := by
  unfold startsWith? at h
  split at h
  · simpa using h
  · contradiction

def findPair? (a b : Char) (bytes : List UInt8) (i : Nat) : Option Nat :=
  match h : at? bytes i with
  | none => none
  | some c =>
    if c = a ∧ at? bytes (i + 1) = some b then some i else findPair? a b bytes (i + 1)
termination_by bytes.length - i
decreasing_by
  have := lt_of_at? h
  omega

theorem findPair?_bounds {a b : Char} {bytes : List UInt8} {i j : Nat}
    (h : findPair? a b bytes i = some j) : i ≤ j ∧ j + 2 ≤ bytes.length := by
  fun_induction findPair? a b bytes i with
  | case1 => contradiction
  | case2 i c hc hpair =>
    obtain rfl := Option.some.inj h
    have := lt_of_at? hpair.2
    omega
  | case3 i c hc hpair ih =>
    have := ih h
    omega

end Reflector.Bytes
