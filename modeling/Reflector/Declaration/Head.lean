import Reflector.Declaration.Token
/-!
# Declaration heads

A head is what stands before the terminator of a declaration. It declares a member if it has at
least two tokens and the last of them is an identifier, the declared name: a name without a type, a
constructor, a bit-field and an array declare none.
-/

namespace Reflector

open Text

/-- The character ends the head of a declaration: a semicolon, an equals sign or an opening brace
after a field, an opening parenthesis after a method. -/
def isTerminator (c : Char) : Bool :=
  c == ';' || c == '=' || c == '{' || c == '('

structure MemberHead where
  /-- The tokens in order, each with the offset where it begins. -/
  tokens : List (Nat × Token)
  terminator : Char
  /-- The offset just past the terminator. -/
  stop : Nat
deriving DecidableEq, Repr

namespace MemberHead

def read? (offset : Nat) (cs : List Char) : Option MemberHead :=
  match hg : gap? cs with
  | none => none
  | some (gap, rest) =>
    let start := offset + byteLength gap
    match rest.head? with
    | none => none
    | some c =>
      if isTerminator c then some ⟨[], c, start + c.utf8Size⟩
      else match ht : token? rest with
        | none => none
        | some (token, after) =>
          have : after.length < cs.length := by
            obtain ⟨hne, hr⟩ := token?_sound ht
            have := List.length_pos_iff.2 hne
            rw [gap?_sound hg, hr]
            simp only [List.length_append]
            omega
          (read? (start + byteLength token.text) after).map fun head =>
            { head with tokens := (start, token) :: head.tokens }
termination_by cs.length

/-- The last token, if it is an identifier that follows a type. -/
def declared? (head : MemberHead) : Option (Nat × Token) :=
  head.tokens.getLast?.filter fun (_, token) => decide (2 ≤ head.tokens.length) && token.isName

end MemberHead

/-- The head of the declaration at a byte offset of a text, if a member is declared there. -/
def memberHead? (cs : List Char) (pos : Nat) : Option MemberHead := do
  let (_, rest) ← splitAtByte? pos cs
  let head ← MemberHead.read? pos rest
  guard head.declared?.isSome
  return head

/-- A way to find the bounds of the declaration at a byte offset of a text. -/
structure DeclReader where
  /-- The offset just past the terminator of a field. -/
  fieldStop? : List Char → Nat → Option Nat
  /-- The offset just past the parenthesis that opens the parameters of a method. -/
  methodStop? : List Char → Nat → Option Nat
  /-- The offset where the declared name begins. -/
  nameOffset : List Char → Nat → Nat

/-- Reads declarations token by token. Where no member is declared, its name is taken to begin at
the place asked about. -/
def tokenReader : DeclReader where
  fieldStop? cs pos := ((memberHead? cs pos).filter (·.terminator != '(')).map (·.stop)
  methodStop? cs pos := ((memberHead? cs pos).filter (·.terminator == '(')).map (·.stop)
  nameOffset cs pos := (((memberHead? cs pos).bind MemberHead.declared?).map (·.1)).getD pos

end Reflector
