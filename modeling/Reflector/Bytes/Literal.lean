import Reflector.Bytes.Text
import Reflector.Source.Literal
/-!
# Literals by byte index

Whether a quote opens a literal is decided by walking back over the bytes before it. The end of a
literal is sought byte by byte; a backslash moves on by two bytes, whatever they belong to.
-/

namespace Reflector.Bytes

open Source

/-- The least index from which on all bytes before `stop` can stand in a number. -/
def numberStart (bytes : List UInt8) : Nat → Nat
  | 0 => 0
  | stop + 1 => if (at? bytes stop).any isNumberChar then numberStart bytes stop else stop + 1

def opensLiteral (bytes : List UInt8) (i : Nat) : Bool :=
  at? bytes i != some '\'' ||
    !(decide (numberStart bytes i < i) && (at? bytes (numberStart bytes i)).any Char.isDigit)

/-- Where a literal with this quote ends that goes on at index `i`. -/
def literalEnd (quote : Char) (bytes : List UInt8) (i : Nat) : Nat :=
  match h : at? bytes i with
  | none => bytes.length
  | some c =>
    if c = '\\' then literalEnd quote bytes (i + 2)
    else if c = '\n' then i
    else if c = quote then i + 1
    else literalEnd quote bytes (i + 1)
termination_by bytes.length - i
decreasing_by
  all_goals
    have := lt_of_at? h
    omega

theorem literalEnd_bounds (quote : Char) (bytes : List UInt8) (i : Nat) :
    min i bytes.length ≤ literalEnd quote bytes i ∧ literalEnd quote bytes i ≤ bytes.length := by
  fun_induction literalEnd quote bytes i with
  | case1 => omega
  | case2 i h ih => omega
  | case3 i h _ =>
    have := lt_of_at? h
    omega
  | case4 i h _ _ =>
    have := lt_of_at? h
    omega
  | case5 i c h _ _ _ ih => omega

/-- The end of the literal that the quote at an index opens. There must be a byte at the index. -/
def skipLiteral? (bytes : List UInt8) (i : Nat) : Option Nat :=
  (at? bytes i).map fun quote => literalEnd quote bytes (i + 1)

end Reflector.Bytes
