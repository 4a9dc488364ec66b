import Reflector.Proofs.MemberGrammar
import Reflector.Proofs.Search
import Reflector.Proofs.Trim
/-!
# The names of the members

A name is cut out from where it begins to the terminator and trimmed. White space before the
terminator is trimmed off; an attribute there is not, and stays in the name.
-/

namespace Reflector

open Text Source

namespace IsQualified

private theorem getLast?_isNameChar {text : List Char} (h : IsQualified text) :
    ∀ c ∈ text.getLast?, isNameChar c = true := by
  induction h with
  | identifier hw =>
    exact fun c hc => isNameChar_of_mem_isIdentifier hw c (List.mem_of_getLast? hc)
  | join _ _ _ hmore ih =>
    intro c hc
    obtain ⟨d, ds, hcons, -⟩ := hmore.exists_cons
    rw [hcons, List.getLast?_append_cons, ← hcons] at hc
    exact ih c hc

private theorem mem_class {text : List Char} (h : IsQualified text) :
    ∀ c ∈ text, isNameChar c = true ∨ isGapChar c = true ∨ c = ':' := by
  induction h with
  | identifier hw => exact fun c hc => Or.inl (isNameChar_of_mem_isIdentifier hw c hc)
  | join hw hg hg' _ ih =>
    intro c hc
    simp only [List.mem_append] at hc
    rcases hc with (((hc | hc) | hc) | hc) | hc
    · exact Or.inl (isNameChar_of_mem_isIdentifier hw c hc)
    · exact Or.inr (Or.inl (hg c hc))
    · exact Or.inr (Or.inr (by simpa using hc))
    · exact Or.inr (Or.inl (hg' c hc))
    · exact ih c hc

end IsQualified

namespace IsQualifiedName

private theorem getLast?_isNameChar {text : List Char} (h : IsQualifiedName text) :
    ∀ c ∈ text.getLast?, isNameChar c = true := by
  cases h with
  | relative hq => exact hq.getLast?_isNameChar
  | absolute _ hq =>
    intro c hc
    obtain ⟨d, ds, hcons, -⟩ := hq.exists_cons
    rw [hcons, List.getLast?_append_cons, ← hcons] at hc
    exact hq.getLast?_isNameChar c hc

theorem bracket_not_mem {text : List Char} (h : IsQualifiedName text) : '[' ∉ text := by
  have hclass : ∀ c ∈ text, isNameChar c = true ∨ isGapChar c = true ∨ c = ':' := by
    cases h with
    | relative hq => exact hq.mem_class
    | absolute hg hq =>
      intro c hc
      simp only [List.mem_append] at hc
      rcases hc with (hc | hc) | hc
      · exact Or.inr (Or.inr (by simpa using hc))
      · exact Or.inr (Or.inl (hg c hc))
      · exact hq.mem_class c hc
  intro hm
  exact absurd (hclass '[' hm) (by decide)

end IsQualifiedName

/-- A gap is white space, or it has an attribute and then white space at its end. -/
private theorem TokenGap.blank_or_ends {gap : List Char} (h : TokenGap gap) :
    (∀ c ∈ gap, isGapChar c = true) ∨
      ∃ front blanks, gap = front ++ [']'] ++ blanks ∧ '[' ∈ front ∧
        ∀ c ∈ blanks, isGapChar c = true := by
  induction h with
  | nil => exact Or.inl (by simp)
  | @blank c gap hc _ ih =>
    rcases ih with hgap | ⟨front, blanks, rfl, hm, hblanks⟩
    · exact Or.inl (List.forall_mem_cons.mpr ⟨hc, hgap⟩)
    · exact Or.inr ⟨c :: front, blanks, by simp, List.mem_cons_of_mem c hm, hblanks⟩
  | @bracketed text gap ht _ ih =>
    right
    rcases ih with hgap | ⟨front, blanks, rfl, hm, hblanks⟩
    · obtain ⟨inside, rfl, -⟩ := ht
      exact ⟨'[' :: '[' :: inside ++ [']'], gap, by simp, by simp, hgap⟩
    · exact ⟨'[' :: '[' :: text ++ front, blanks, by simp, by simp, hblanks⟩

private theorem TokenGap.trimEnd_eq {gap : List Char} (h : TokenGap gap) {p : Char → Bool}
    (hblank : ∀ c, isGapChar c = true → p c = true) (hbracket : p ']' = false) :
    trimEnd p gap = trimEnd isGapChar gap := by
  rcases h.blank_or_ends with hgap | ⟨front, blanks, rfl, -, hblanks⟩
  · rw [trimEnd_eq_nil hgap, trimEnd_eq_nil fun c hc => hblank c (hgap c hc)]
  · rw [trimEnd_append (by simpa using hbracket), trimEnd_append (by simp [isGapChar]),
      trimEnd_eq_nil hblanks, trimEnd_eq_nil fun c hc => hblank c (hblanks c hc)]

namespace MemberKind

theorem end?_eq_some_iff {kind : MemberKind} {cs : List Char} {pos stop : Nat} :
    kind.end? tokenReader cs pos = some stop ↔
      ∃ member : DeclaredMember cs pos, member.terminator ∈ kind.terminators ∧
        member.stop = stop := by
  cases kind with
  | field => exact fieldStop?_eq_some_iff
  | method =>
    simp only [terminators, List.mem_singleton]
    exact methodStop?_eq_some_iff

/-- What is trimmed off the ends of a name of this kind. -/
def trims (kind : MemberKind) (c : Char) : Bool :=
  isBlank c || kind.isDelimiter c

private theorem trims_of_isGapChar (kind : MemberKind) {c : Char} (h : isGapChar c = true) :
    kind.trims c = true := by
  rw [trims, isBlank_of_isGapChar h, Bool.true_or]

private theorem trims_of_mem_terminators {kind : MemberKind} {c : Char} (h : c ∈ kind.terminators) :
    kind.trims c = true := by
  cases kind <;> simp only [terminators, List.mem_cons, List.not_mem_nil, or_false] at h
  · rcases h with rfl | rfl | rfl <;> rfl
  · rw [h]
    rfl

private theorem trims_of_isNameChar (kind : MemberKind) {c : Char} (h : isNameChar c = true) :
    kind.trims c = false := by
  have hother : ∀ d, isNameChar d = false → c ≠ d := fun d => ne_of_class h
  rw [trims, isBlank_of_isNameChar h, Bool.false_or]
  cases kind <;> simp (disch := decide) [isDelimiter, hother]

private theorem declaredName_eq (kind : MemberKind) {name gap : List Char} {terminator : Char}
    (hname : IsQualifiedName name) (hgap : TokenGap gap) (ht : terminator ∈ kind.terminators) :
    declaredName kind.isDelimiter (name ++ gap ++ [terminator]) =
      name ++ trimEnd isGapChar gap := by
  have hfirst : ∀ c ∈ (name ++ gap ++ [terminator]).head?, kind.trims c = false := by
    obtain ⟨c, cs, rfl, hc⟩ := hname.exists_cons
    intro d hd
    obtain rfl : c = d := Option.some.inj hd
    rcases hc with rfl | hc
    · cases kind <;> rfl
    · exact kind.trims_of_isNameChar (isNameChar_of_isNameStart hc)
  have hlast : ∀ c ∈ name.getLast?, kind.trims c = false :=
    fun c hc => kind.trims_of_isNameChar (hname.getLast?_isNameChar c hc)
  change trim kind.trims _ = _
  rw [trim_of_head? hfirst, trimEnd_concat_of_pos (trims_of_mem_terminators ht),
    trimEnd_append hlast, hgap.trimEnd_eq (fun c => kind.trims_of_isGapChar) (by cases kind <;> rfl)]

end MemberKind

private theorem Tokenizes.stands_of_mem {after text : List Char} {tokens : List Token}
    (h : Tokenizes after tokens text) {token : Token} (ht : token ∈ tokens) :
    ∃ rest, token.Stands rest := by
  induction h with
  | nil => simp at ht
  | cons _ hstands _ ih =>
    rcases List.mem_cons.mp ht with rfl | ht
    · exact ⟨_, hstands⟩
    · exact ih ht

namespace DeclaredMember

variable {body : List Char} {pos : Nat}

private theorem slice_eq (member : DeclaredMember body pos) :
    slice member.start member.stop body = member.name ++ member.gap ++ [member.terminator] := by
  obtain ⟨before, types, front, name, gap, c, after, rfl, -, -, -, -, -⟩ := member
  have htext : before ++ front ++ name ++ gap ++ c :: after =
      (before ++ front) ++ (name ++ gap ++ [c]) ++ after := by simp
  have hstop : byteLength (before ++ front ++ name ++ gap ++ [c]) =
      byteLength (before ++ front) + byteLength (name ++ gap ++ [c]) := by
    rw [← byteLength_append]
    simp only [List.append_assoc]
  simp only [start, stop]
  rw [hstop, htext]
  exact slice_byteLength _ _ _

private theorem isQualifiedName (member : DeclaredMember body pos) : IsQualifiedName member.name := by
  obtain ⟨after, hstands⟩ := member.tokenizes.stands_of_mem (List.mem_append_right _
    (List.mem_singleton_self _))
  exact hstands.1

/-- What a scan for the members of one kind finds at this place. -/
theorem markedName?_eq_some_iff {kind : MemberKind} {found : MarkedName} :
    markedName? tokenReader body kind pos = some found ↔
      ∃ member : DeclaredMember body pos, member.terminator ∈ kind.terminators ∧
        found = ⟨pos, member.name ++ trimEnd isGapChar member.gap⟩ := by
  have hname : ∀ member : DeclaredMember body pos, member.terminator ∈ kind.terminators →
      declaredName kind.isDelimiter
        (slice (min (tokenReader.nameOffset body pos) member.stop) member.stop body) =
          member.name ++ trimEnd isGapChar member.gap := by
    intro member ht
    have hle : member.start ≤ member.stop := by
      simp only [start, stop, byteLength_append]
      omega
    rw [nameOffset_of_declaredMember member, Nat.min_eq_left hle, member.slice_eq]
    exact kind.declaredName_eq member.isQualifiedName member.tokenGap ht
  rw [markedName?, Option.map_eq_some_iff]
  simp only [MemberKind.end?_eq_some_iff]
  constructor
  · rintro ⟨_, ⟨member, ht, rfl⟩, rfl⟩
    exact ⟨member, ht, by rw [hname member ht]⟩
  · rintro ⟨member, ht, rfl⟩
    exact ⟨member.stop, ⟨member, ht, rfl⟩, by rw [hname member ht]⟩

end DeclaredMember

theorem ClassBlock.mem_memberNames {markNames : List (List Char)} {decl : ClassBlock}
    {kind : MemberKind} {entry : String} :
    entry ∈ decl.memberNames markNames tokenReader kind ↔
      ∃ name gap, decl.Declares markNames kind name gap ∧
        entry.toList = name ++ trimEnd isGapChar gap := by
  simp only [memberNames, marked, Declares, List.mem_map, List.mem_filter, List.mem_filterMap,
    DeclaredMember.markedName?_eq_some_iff, decide_eq_true_eq]
  constructor
  · rintro ⟨_, ⟨⟨pos, hpos, member, ht, rfl⟩, -⟩, rfl⟩
    exact ⟨_, _, ⟨pos, hpos, member, ht, rfl, rfl⟩, String.toList_ofList⟩
  · rintro ⟨_, _, ⟨pos, hpos, member, ht, rfl, rfl⟩, hentry⟩
    refine ⟨_, ⟨⟨pos, hpos, member, ht, rfl⟩, ?_⟩, ?_⟩
    · obtain ⟨c, cs, hcons, -⟩ := member.isQualifiedName.exists_cons
      simp [hcons]
    · rw [← hentry, String.ofList_toList]

/-- An entry is a qualified identifier unless an attribute is left in it. -/
private theorem IsQualifiedName.append_iff {name gap : List Char} (hname : IsQualifiedName name)
    (hgap : TokenGap gap) :
    IsQualifiedName (name ++ trimEnd isGapChar gap) ↔ ∀ c ∈ gap, isGapChar c = true := by
  constructor
  · intro h
    rcases hgap.blank_or_ends with hblank | ⟨front, blanks, rfl, hm, -⟩
    · exact hblank
    · have hlast : ∀ c ∈ (front ++ [']']).getLast?, isGapChar c = false := by
        simp [isGapChar]
      rw [trimEnd_append hlast] at h
      exact absurd (by simp [hm]) h.bracket_not_mem
  · intro hblank
    rw [trimEnd_eq_nil hblank, List.append_nil]
    exact hname

theorem ClassBlock.Declares.isQualifiedName {markNames : List (List Char)} {decl : ClassBlock}
    {kind : MemberKind} {name gap : List Char} (h : decl.Declares markNames kind name gap) :
    IsQualifiedName name ∧
      (IsQualifiedName (name ++ trimEnd isGapChar gap) ↔ ∀ c ∈ gap, isGapChar c = true) := by
  obtain ⟨pos, -, member, -, rfl, rfl⟩ := h
  exact ⟨member.isQualifiedName, member.isQualifiedName.append_iff member.tokenGap⟩

end Reflector
