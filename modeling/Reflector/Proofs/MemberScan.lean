import Reflector.Proofs.Member

namespace Reflector

open Text

def defaultMarks : List (List Char) :=
  ({} : Config).reflAttributes.map String.toList

/-- The pattern recognises the written mark, and nothing that begins without a bracket. -/
structure ReadsMark (p : Pattern) : Prop where
  mark : ∀ left cs, p.match? left (markText ++ cs) = some (markText, cs)
  other : ∀ c, c ≠ '[' → ∀ left cs, p.match? left (c :: cs) = none
  nil : ∀ left, p.match? left [] = none

theorem readsMark_markPattern : ReadsMark (markPattern defaultMarks) where
  mark _ _ := rfl
  other c hc left cs := by
    have hafter : after? ['[', '['] (c :: cs) = none := by simp [after?, hc.symm]
    simp [markPattern, mark?, hafter]
  nil _ := rfl

namespace ReadsMark

variable {p : Pattern} {gap cs : List Char}

theorem find?_mark (h : ReadsMark p) (hgap : '[' ∉ gap) (left : Option Char) (cs : List Char) :
    p.find? left (gap ++ (markText ++ cs)) = some ⟨gap, markText, cs⟩ := by
  have hskip : ∀ c ∈ gap, ∀ left rest, p.match? left (c :: rest) = none := by
    intro c hc
    have hne : c ≠ '[' := fun he => hgap (he ▸ hc)
    exact h.other c hne
  rw [Pattern.find?_append left _ hskip, Pattern.find?_of_match (h.mark _ cs)]
  simp

private theorem find?_eq_none (h : ReadsMark p) (hcs : '[' ∉ cs) (left : Option Char) :
    p.find? left cs = none := by
  apply Pattern.find?_eq_none_of_forall left
  · intro c hc
    have hne : c ≠ '[' := fun he => hcs (he ▸ hc)
    exact h.other c hne
  · exact h.nil

end ReadsMark

def memberOffsets (offset : Nat) : List MemberDescription → List Nat
  | [] => []
  | member :: members => offset :: memberOffsets (offset + byteLength member.source) members

def membersText (members : List MemberDescription) : List Char :=
  members.flatMap MemberDescription.source

theorem starts_spansFrom (offset : Nat) (left : Option Char) {gap after : List Char}
    (hgap : '[' ∉ gap) (hafter : '[' ∉ after) (members : List MemberDescription) :
    ((markPattern defaultMarks).spansFrom offset left (gap ++ (membersText members ++ after))).map
      (·.start) = memberOffsets (offset + byteLength gap) members := by
  induction members generalizing offset left gap with
  | nil =>
    have hout : '[' ∉ gap ++ (membersText [] ++ after) := by simp [membersText, hgap, hafter]
    rw [Pattern.spansFrom_of_none (readsMark_markPattern.find?_eq_none hout left)]
    rfl
  | cons member members ih =>
    have htext : gap ++ (membersText (member :: members) ++ after) =
        gap ++ (markText ++ (member.declText ++ (membersText members ++ after))) := by
      simp [membersText, member.source_eq]
    have hdecl : '[' ∉ member.declText :=
      not_mem_of_isPlainChar member.isPlainChar_of_mem_declText (by decide)
    have hnext : offset + byteLength gap + byteLength markText + byteLength member.declText =
        offset + byteLength gap + byteLength member.source := by
      rw [member.source_eq, byteLength_append]
      omega
    have hfind := readsMark_markPattern.find?_mark hgap left
      (member.declText ++ (membersText members ++ after))
    rw [htext, Pattern.spansFrom_of_some hfind, List.map_cons, ih _ _ hdecl, hnext]
    rfl

theorem names_memberOffsets (before after : List Char) (members : List MemberDescription)
    (kind : MemberKind) :
    ((memberOffsets (byteLength before) members).filterMap
      (markedName? tokenReader (before ++ (membersText members ++ after)) kind)).map (·.name) =
        (members.filter (·.kind == kind)).map (·.name.chars) := by
  induction members generalizing before with
  | nil => rfl
  | cons member members ih =>
    have hfirst := member.markedName?_source before (membersText members ++ after) kind
    have hmore := ih (before ++ member.source)
    rw [byteLength_append, List.append_assoc] at hmore
    have htext : before ++ (membersText (member :: members) ++ after) =
        before ++ (member.source ++ (membersText members ++ after)) := by
      simp [membersText]
    rw [htext, memberOffsets, List.filterMap_cons, hfirst]
    by_cases hk : member.kind = kind
    · simp [hk, hmore]
    · simp [hk, hmore]

end Reflector
