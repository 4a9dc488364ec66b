import Reflector.Proofs.Declaration
import Reflector.Proofs.MemberName

namespace Reflector

open Text

namespace Identifier

private theorem isPlain (name : Identifier) : (Token.name name.chars).IsPlain := by
  refine ⟨name.isIdentifier_text, ?_⟩
  intro he
  have htext : name.text.toList = "operator".toList := he
  exact name.ne_operator (String.toList_inj.mp htext)

theorem isNameChar_of_mem (name : Identifier) : ∀ c ∈ name.chars, isNameChar c = true :=
  isNameChar_of_mem_isIdentifier name.isIdentifier_text

theorem not_mem_chars (name : Identifier) {c : Char} (hc : isNameChar c = false) :
    c ∉ name.chars := by
  intro hm
  exact ne_of_class (name.isNameChar_of_mem c hm) hc rfl

theorem chars_ne_nil (name : Identifier) : name.chars ≠ [] := by
  obtain ⟨c, cs, hc, -⟩ := isIdentifier_iff.mp name.isIdentifier_text
  rw [Identifier.chars, hc]
  exact List.cons_ne_nil c cs

end Identifier

namespace TypeDescription

def tokens (type : TypeDescription) : List Token :=
  .name type.first.chars :: type.more.map (.name ·.chars) ++ type.sign.toList.map (.sign ·.char)

private theorem spacedText_tokens (type : TypeDescription) :
    spacedText type.tokens = ' ' :: type.source := by
  simp [spacedText, tokens, source, List.flatMap_map, Token.spaced, Token.text]

private theorem isPlain_of_mem_tokens (type : TypeDescription) :
    ∀ token ∈ type.tokens, token.IsPlain := by
  intro token ht
  simp only [tokens, List.cons_append, List.mem_cons, List.mem_append, List.mem_map] at ht
  rcases ht with rfl | ⟨word, -, rfl⟩ | ⟨sign, -, rfl⟩
  · exact type.first.isPlain
  · exact word.isPlain
  · cases sign
    · exact Or.inl rfl
    · exact Or.inr rfl

end TypeDescription

namespace MemberDescription

def tokens (member : MemberDescription) : List Token :=
  member.type.tokens ++ [.name member.name.chars]

def tail (member : MemberDescription) : List Char :=
  match member.kind with
  | .field => [' ']
  | .method => [')', ';', ' ']

private theorem isPlain_of_mem_tokens (member : MemberDescription) :
    ∀ token ∈ member.tokens, token.IsPlain := by
  intro token ht
  rcases List.mem_append.mp ht with ht | ht
  · exact member.type.isPlain_of_mem_tokens token ht
  · rw [List.mem_singleton.mp ht]
    exact member.name.isPlain

def declText (member : MemberDescription) : List Char :=
  spacedText member.tokens ++ member.kind.terminator :: member.tail

theorem source_eq (member : MemberDescription) :
    member.source = markText ++ member.declText := by
  have htokens : spacedText member.tokens =
      ' ' :: (member.type.source ++ ' ' :: member.name.chars) := by
    rw [tokens, spacedText, List.flatMap_append]
    change spacedText member.type.tokens ++ _ = _
    rw [TypeDescription.spacedText_tokens]
    simp [Token.spaced, Token.text]
  have hending : member.ending ++ [' '] = member.kind.terminator :: member.tail := by
    unfold ending tail
    cases member.kind <;> rfl
  rw [declText, htokens, ← hending]
  simp [source]

/-- The member as it stands in a text behind `before`. -/
def declared (before after : List Char) (member : MemberDescription) :
    DeclaredMember (before ++ (member.source ++ after)) (byteLength before) where
  before := before
  types := member.type.tokens
  front := markText ++ spacedText member.type.tokens ++ [' ']
  name := member.name.chars
  gap := []
  terminator := member.kind.terminator
  after := member.tail ++ after
  text_eq := by simp [source_eq, declText, tokens, spacedText, Token.spaced, Token.text]
  pos_eq := rfl
  types_ne_nil := by simp [TypeDescription.tokens]
  tokenizes := by
    have hplain := tokenizes_spacedText member.tokens member.isPlain_of_mem_tokens member.kind
      (member.tail ++ after)
    have hmark : TokenGap markText := .bracketed ⟨"refl".toList, rfl, by decide⟩ .nil
    have htext : markText ++ spacedText member.type.tokens ++ [' '] ++ member.name.chars =
        markText ++ spacedText member.tokens := by
      simp [tokens, spacedText, Token.spaced, Token.text]
    rw [htext]
    exact hplain.prepend hmark
  tokenGap := .nil
  terminator_mem := by cases member.kind <;> decide

theorem markedName?_source (before after : List Char) (member : MemberDescription)
    (kind : MemberKind) :
    markedName? tokenReader (before ++ (member.source ++ after)) kind (byteLength before) =
      if member.kind == kind then some ⟨byteLength before, member.name.chars⟩ else none := by
  by_cases hk : member.kind = kind
  · rw [if_pos (by simpa using hk)]
    apply DeclaredMember.markedName?_eq_some_iff.mpr
    exact ⟨member.declared before after, MemberKind.terminator_mem_iff.mpr hk, by simp [declared]⟩
  · rw [if_neg (by simpa using hk), Option.eq_none_iff_forall_ne_some]
    intro found hfound
    obtain ⟨other, hterminator, -⟩ := DeclaredMember.markedName?_eq_some_iff.mp hfound
    rw [other.terminator_unique (member.declared before after)] at hterminator
    exact hk (MemberKind.terminator_mem_iff.mp hterminator)

end MemberDescription

/-- The character can stand in a declaration behind its mark. -/
def isPlainChar (c : Char) : Bool :=
  isNameChar c || [' ', '*', '&', ';', '(', ')'].contains c

theorem isPlainChar_of_isNameChar {c : Char} (h : isNameChar c = true) : isPlainChar c = true := by
  rw [isPlainChar, h, Bool.true_or]

theorem not_mem_of_isPlainChar {c : Char} {cs : List Char} (hcs : ∀ d ∈ cs, isPlainChar d = true)
    (hc : isPlainChar c = false) : c ∉ cs := by
  intro hm
  rw [hcs c hm] at hc
  contradiction

namespace MemberDescription

theorem isPlainChar_of_mem_declText (member : MemberDescription) :
    ∀ c ∈ member.declText, isPlainChar c = true := by
  have htoken : ∀ token ∈ member.tokens, ∀ c ∈ token.spaced, isPlainChar c = true := by
    intro token ht c hc
    have hplain := member.isPlain_of_mem_tokens token ht
    rcases List.mem_cons.mp hc with rfl | hc
    · rfl
    · cases token with
      | sign d =>
        rw [List.mem_singleton.mp hc]
        rcases hplain with rfl | rfl <;> rfl
      | angles t => exact hplain.elim
      | name t =>
        exact isPlainChar_of_isNameChar (isNameChar_of_mem_isIdentifier hplain.1 c hc)
  intro c hc
  rcases List.mem_append.mp hc with hc | hc
  · obtain ⟨token, ht, hc⟩ := List.mem_flatMap.mp hc
    exact htoken token ht c hc
  · have hrest : ∀ d ∈ member.kind.terminator :: member.tail, isPlainChar d = true := by
      unfold tail
      cases member.kind <;> exact List.all_eq_true.mp rfl
    exact hrest c hc

end MemberDescription

end Reflector
