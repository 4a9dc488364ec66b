import Reflector.Proofs.Token
import Reflector.Proofs.TokenGap

namespace Reflector

open Text

namespace Token

/-- An identifier other than the operator word, or a sign. -/
def IsPlain : Token → Prop
  | sign c => c = '*' ∨ c = '&'
  | angles _ => False
  | name t => isIdentifier t = true ∧ t ≠ operatorWord

def spaced (token : Token) : List Char :=
  ' ' :: token.text

private theorem IsPlain.text_eq_cons {token : Token} (h : token.IsPlain) :
    ∃ c cs, token.text = c :: cs ∧ isGapChar c = false ∧ c ≠ ':' := by
  cases token with
  | sign c =>
    refine ⟨c, [], rfl, ?_⟩
    rcases h with rfl | rfl <;> decide
  | angles t => exact h.elim
  | name t =>
    obtain ⟨c, cs, rfl, hc, -⟩ := isIdentifier_iff.mp h.1
    have hcolon : c ≠ ':' := ne_of_class (isNameChar_of_isNameStart hc) (by decide)
    exact ⟨c, cs, rfl, isGapChar_of_isNameStart hc, hcolon⟩

private theorem IsPlain.stands {token : Token} {after : List Char} (h : token.IsPlain)
    (hafter : StopsName after) : token.Stands after := by
  cases token with
  | sign c => exact h
  | angles t => exact h.elim
  | name t =>
    obtain ⟨hid, hne⟩ := h
    refine ⟨.relative (.identifier hid), hafter, hne, ?_⟩
    intro hsuffix
    have hcolon := isNameChar_of_mem_isIdentifier hid ':' (hsuffix.subset List.mem_cons_self)
    exact absurd hcolon (by decide)

end Token

def spacedText (tokens : List Token) : List Char :=
  tokens.flatMap Token.spaced

def MemberKind.terminator : MemberKind → Char
  | field => ';'
  | method => '('

theorem MemberKind.terminator_mem_iff {kind other : MemberKind} :
    kind.terminator ∈ other.terminators ↔ kind = other := by
  cases kind <;> cases other <;> decide

private theorem stopsName_spacedText (tokens : List Token) (ht : ∀ token ∈ tokens, token.IsPlain)
    (kind : MemberKind) (rest : List Char) :
    StopsName (spacedText tokens ++ kind.terminator :: rest) := by
  cases tokens with
  | nil =>
    have hname : isNameChar kind.terminator = false := by cases kind <;> rfl
    have hgap : isGapChar kind.terminator = false := by cases kind <;> rfl
    have hcolon : kind.terminator ≠ ':' := by cases kind <;> decide
    exact stopsName_cons hname hgap hcolon rest
  | cons token tokens =>
    obtain ⟨c, tail, htext, hgap, hcolon⟩ := (ht token List.mem_cons_self).text_eq_cons
    have hblank : isNameChar ' ' = false := by decide
    refine ⟨fun c hc => Option.some.inj hc ▸ hblank, ?_⟩
    have hspaced : spacedText (token :: tokens) ++ kind.terminator :: rest =
        ' ' :: c :: (tail ++ (spacedText tokens ++ kind.terminator :: rest)) := by
      simp [spacedText, Token.spaced, htext]
    rw [hspaced, List.dropWhile_cons_of_pos (by decide)]
    exact not_colons_dropWhile hgap hcolon _

theorem tokenizes_spacedText (tokens : List Token) (ht : ∀ token ∈ tokens, token.IsPlain)
    (kind : MemberKind) (rest : List Char) :
    Tokenizes (kind.terminator :: rest) tokens (spacedText tokens) := by
  induction tokens with
  | nil => exact .nil
  | cons token tokens ih =>
    have htokens : ∀ token ∈ tokens, token.IsPlain := fun t hm => ht t (List.mem_cons_of_mem token hm)
    have hblank : TokenGap [' '] := .blank (by decide) .nil
    have hstands := (ht token List.mem_cons_self).stands
      (stopsName_spacedText tokens htokens kind rest)
    exact .cons hblank hstands (ih htokens)

end Reflector
