import Mathlib.Data.Option.Basic
import Reflector.Bytes.Text
import Reflector.Class.Members
/-!
# Declarations by byte index

The tokens of a declaration as far as its terminator, read by index. An answer `none` says that a cut
failed; `some none` says that the text has no such form at the index.
-/

namespace Reflector.Bytes

open Text

/-- Skips the white space and the attributes at an index. -/
def skipAttributes? (bytes : List UInt8) (i : Nat) : Option (Option Nat) :=
  let start := skipWhile isGapChar bytes i
  match startsWith? '[' '[' bytes start with
  | none => none
  | some false => some (some start)
  | some true =>
    match hclose : findPair? ']' ']' bytes (start + 2) with
    | none => some none
    | some close => skipAttributes? bytes (close + 2)
termination_by bytes.length - i
decreasing_by
  have := le_skipWhile isGapChar bytes i
  have := findPair?_bounds hclose
  omega

theorem skipAttributes?_le {bytes : List UInt8} {i next : Nat}
    (h : skipAttributes? bytes i = some (some next)) : skipWhile isGapChar bytes i ≤ next := by
  fun_induction skipAttributes? bytes i with
  | case1 => contradiction
  | case2 i start _ =>
    obtain rfl := Option.some.inj (Option.some.inj h)
    exact Nat.le_refl _
  | case3 => exact absurd (Option.some.inj h) (by simp)
  | case4 i start _ close hclose ih =>
    have := le_skipWhile isGapChar bytes (close + 2)
    have := findPair?_bounds hclose
    have := ih h
    omega

theorem lt_skipAttributes? {bytes : List UInt8} {i next : Nat} (hi : at? bytes i = some '[')
    (hnext : at? bytes (i + 1) = some '[')
    (h : skipAttributes? bytes i = some (some next)) : i < next := by
  have hgap : skipWhile isGapChar bytes i = i := by
    rw [skipWhile_of_at? hi]
    rfl
  have hopen : startsWith? '[' '[' bytes i = some true := by
    rw [startsWith?, if_pos (Nat.le_of_lt (lt_of_at? hi)), hi, hnext]
    rfl
  rw [skipAttributes?, hgap, hopen] at h
  simp only at h
  split at h
  · exact absurd (Option.some.inj h) (by simp)
  · rename_i close hclose
    have := findPair?_bounds hclose
    have := skipAttributes?_le h
    have := le_skipWhile isGapChar bytes (close + 2)
    omega

def behindIdentifier (bytes : List UInt8) (i : Nat) : Nat :=
  skipWhile isGapChar bytes (skipWhile isNameChar bytes i)

theorem le_behindIdentifier (bytes : List UInt8) (i : Nat) : i ≤ behindIdentifier bytes i :=
  Nat.le_trans (le_skipWhile _ bytes i) (le_skipWhile _ bytes _)

def qualifiedEnd? (bytes : List UInt8) (i : Nat) : Option (Option Nat) :=
  match h : at? bytes i with
  | none => some none
  | some c =>
    if isNameStart c then
      match startsWith? ':' ':' bytes (behindIdentifier bytes i) with
      | none => none
      | some false => some (some (skipWhile isNameChar bytes i))
      | some true =>
        have := lt_of_at? h
        qualifiedEnd? bytes (skipWhile isGapChar bytes (behindIdentifier bytes i + 2))
    else some none
termination_by bytes.length - i
decreasing_by
  have := le_behindIdentifier bytes i
  have := le_skipWhile isGapChar bytes (behindIdentifier bytes i + 2)
  omega

theorem lt_qualifiedEnd? {bytes : List UInt8} {i stop : Nat}
    (h : qualifiedEnd? bytes i = some (some stop)) : i < stop := by
  fun_induction qualifiedEnd? bytes i with
  | case1 => exact absurd (Option.some.inj h) (by simp)
  | case2 => contradiction
  | case3 i c hc hstart =>
    obtain rfl := Option.some.inj (Option.some.inj h)
    exact lt_skipWhile hc (isNameChar_of_isNameStart hstart)
  | case4 i c hc hstart _ _ ih =>
    have := le_behindIdentifier bytes i
    have := le_skipWhile isGapChar bytes (behindIdentifier bytes i + 2)
    have := ih h
    omega
  | case5 => exact absurd (Option.some.inj h) (by simp)

def qualifiedNameEnd? (bytes : List UInt8) (i : Nat) : Option (Option Nat) :=
  match startsWith? ':' ':' bytes i with
  | none => none
  | some false => qualifiedEnd? bytes i
  | some true => qualifiedEnd? bytes (skipWhile isGapChar bytes (i + 2))

theorem lt_qualifiedNameEnd? {bytes : List UInt8} {i stop : Nat}
    (h : qualifiedNameEnd? bytes i = some (some stop)) : i < stop := by
  unfold qualifiedNameEnd? at h
  split at h
  · contradiction
  · exact lt_qualifiedEnd? h
  · have := le_skipWhile isGapChar bytes (i + 2)
    have := lt_qualifiedEnd? h
    omega

/-- Passes over a template argument list. In 32 bits the counts are the same for fewer than 2^31 brackets
and parentheses. -/
def anglesEnd? (bytes : List UInt8) (depth parens : Int) (i : Nat) : Option Nat :=
  match h : at? bytes i with
  | none => none
  | some c =>
    if c = '(' then anglesEnd? bytes depth (parens + 1) (i + 1)
    else if c = ')' then anglesEnd? bytes depth (parens - 1) (i + 1)
    else if c = '<' && parens == 0 then anglesEnd? bytes (depth + 1) parens (i + 1)
    else if c = '>' && parens == 0 then
      if depth = 1 then some (i + 1) else anglesEnd? bytes (depth - 1) parens (i + 1)
    else if c = ';' || c = '{' || c = '}' then none
    else anglesEnd? bytes depth parens (i + 1)
termination_by bytes.length - i
decreasing_by
  all_goals
    have := lt_of_at? h
    omega

theorem lt_anglesEnd? {bytes : List UInt8} {depth parens : Int} {i stop : Nat}
    (h : anglesEnd? bytes depth parens i = some stop) : i < stop := by
  fun_induction anglesEnd? bytes depth parens i with
  | case1 => contradiction
  | case5 =>
    obtain rfl := Option.some.inj h
    exact Nat.lt_succ_self _
  | case7 => contradiction
  | case2 | case3 | case4 | case6 | case8 =>
    rename_i ih
    exact Nat.lt_of_succ_lt (ih h)

/-- Passes over the token at an index; also tells whether it is an identifier. -/
def tokenEnd? (cs : List Char) (i : Nat) : Option (Option (Bool × Nat)) :=
  match at? (encode cs) i with
  | none => some none
  | some c =>
    if c = '<' then some ((anglesEnd? (encode cs) 0 0 i).map (false, ·))
    else if c = '*' || c = '&' then some (some (false, i + 1))
    else do
      let colons ← startsWith? ':' ':' (encode cs) i
      if isNameStart c || colons then
        match ← qualifiedNameEnd? (encode cs) i with
        | none => return none
        | some stop =>
          let word ← slice? i stop cs
          return if isOperator word then none else some (true, stop)
      else return none

theorem lt_tokenEnd? {cs : List Char} {i stop : Nat} {isName : Bool}
    (h : tokenEnd? cs i = some (some (isName, stop))) : i < stop := by
  unfold tokenEnd? at h
  split at h
  · exact absurd (Option.some.inj h) (by simp)
  split at h
  · obtain ⟨stop', hstop, heq⟩ := Option.map_eq_some_iff.mp (Option.some.inj h)
    obtain ⟨-, rfl⟩ := Prod.mk.inj heq
    exact lt_anglesEnd? hstop
  split at h
  · obtain ⟨-, rfl⟩ := Prod.mk.inj (Option.some.inj (Option.some.inj h))
    exact Nat.lt_succ_self i
  simp only [bind, Option.bind_eq_some_iff, pure] at h
  obtain ⟨colons, -, h⟩ := h
  split at h
  · obtain ⟨stop?, hstop, h⟩ := Option.bind_eq_some_iff.mp h
    cases stop? with
    | none => exact absurd (Option.some.inj h) (by simp)
    | some stop' =>
      obtain ⟨word, -, h⟩ := Option.bind_eq_some_iff.mp h
      obtain ⟨-, h⟩ := Option.ite_none_left_eq_some.mp (Option.some.inj h)
      obtain ⟨-, rfl⟩ := Prod.mk.inj (Option.some.inj h)
      exact lt_qualifiedNameEnd? hstop
  · exact absurd (Option.some.inj h) (by simp)

structure DeclHead where
  /-- Where the declared name begins. -/
  nameStart : Nat
  /-- Where the terminator stands. -/
  stop : Nat
  terminator : Char
deriving DecidableEq, Repr

/-- Reads the head of a declaration on from an index, behind so many tokens; `lastIdent` is where the
last of them begins if it is an identifier. -/
def headFrom? (cs : List Char) (tokens : Nat) (lastIdent : Option Nat) (i : Nat) :
    Option (Option DeclHead) :=
  let start := skipWhile isGapChar (encode cs) i
  match h : at? (encode cs) start with
  | none => some none
  | some c =>
    if isTerminator c then
      some do
        let nameStart ← lastIdent
        guard (2 ≤ tokens)
        return ⟨nameStart, start, c⟩
    else if hopen : c = '[' ∧ at? (encode cs) (start + 1) = some '[' then
      match hnext : skipAttributes? (encode cs) start with
      | none => none
      | some none => some none
      | some (some next) =>
        have := lt_skipAttributes? (hopen.1 ▸ h) hopen.2 hnext
        have := lt_of_at? h
        headFrom? cs tokens lastIdent next
    else
      match hnext : tokenEnd? cs start with
      | none => none
      | some none => some none
      | some (some (isName, next)) =>
        have := lt_tokenEnd? hnext
        have := lt_of_at? h
        headFrom? cs (tokens + 1) (if isName then some start else none) next
termination_by (encode cs).length - i
decreasing_by
  all_goals
    have := le_skipWhile isGapChar (encode cs) i
    omega

def declHead? (cs : List Char) (pos : Nat) : Option (Option DeclHead) := do
  match ← skipAttributes? (encode cs) pos with
  | none => return none
  | some start => headFrom? cs 0 none start

def fieldEnd? (cs : List Char) (pos : Nat) : Option (Option Nat) :=
  (declHead? cs pos).map fun head? =>
    (head?.filter (·.terminator != '(')).map (·.stop + 1)

def methodEnd? (cs : List Char) (pos : Nat) : Option (Option Nat) :=
  (declHead? cs pos).map fun head? =>
    (head?.filter (·.terminator == '(')).map (·.stop + 1)

/-- The offset where the name declared at an offset begins, or that offset if none is declared. -/
def nameStart? (cs : List Char) (pos : Nat) : Option Nat :=
  (declHead? cs pos).map fun head? => (head?.map (·.nameStart)).getD pos

end Reflector.Bytes
