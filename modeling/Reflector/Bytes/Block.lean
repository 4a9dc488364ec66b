import Reflector.Block
import Reflector.Bytes.Literal

namespace Reflector.Bytes

open Source

/-- Searches from an index on for the brace that closes the nesting; answers the index behind it. -/
def closeBrace? (bytes : List UInt8) (nesting : Nesting) (i : Nat) : Option Nat :=
  match h : at? bytes i with
  | none => none
  | some c =>
    if (c = '"' ∨ c = '\'') ∧ opensLiteral bytes i = true then
      closeBrace? bytes nesting (literalEnd c bytes (i + 1))
    else if (nesting.next c).isClosed then some (i + 1)
    else closeBrace? bytes (nesting.next c) (i + 1)
termination_by bytes.length - i
decreasing_by
  · have := lt_of_at? h
    have := literalEnd_bounds c bytes (i + 1)
    omega
  · have := lt_of_at? h
    omega

theorem closeBrace?_bounds {bytes : List UInt8} {nesting : Nesting} {i stop : Nat}
    (h : closeBrace? bytes nesting i = some stop) : i < stop ∧ stop ≤ bytes.length := by
  fun_induction closeBrace? bytes nesting i with
  | case1 => contradiction
  | case2 nesting i c hc _ ih =>
    have := lt_of_at? hc
    have := literalEnd_bounds c bytes (i + 1)
    have := ih h
    omega
  | case3 nesting i c hc =>
    obtain rfl := Option.some.inj h
    exact ⟨Nat.lt_succ_self i, lt_of_at? hc⟩
  | case4 nesting i c hc _ _ ih =>
    have := ih h
    omega

end Reflector.Bytes
