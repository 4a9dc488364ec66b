import Reflector.Proofs.ClassSource
import Reflector.Proofs.Keyword
import Reflector.Proofs.Lexeme

namespace Reflector

open Text Source

/-- No identifier run of the text is the erased keyword or has a component marker inside. -/
def IsHarmless (cs : List Char) : Prop :=
  ∀ run ∈ identRuns cs, run ≠ "final".toList ∧
    ∀ marker ∈ ["AKR_DECL_COMP", "AKR_IMPLS"], ¬ marker.toList <:+: run

private theorem IsHarmless.append_cons {xs ys : List Char} (hxs : IsHarmless xs) {c : Char}
    (hc : isNameChar c = false) (hys : IsHarmless ys) : IsHarmless (xs ++ c :: ys) := by
  intro run hrun
  rw [identRuns_append_cons hc] at hrun
  rcases List.mem_append.mp hrun with hrun | hrun
  · exact hxs run hrun
  · exact hys run hrun

private theorem isHarmless_word {w : List Char} (hw : ∀ c ∈ w, isNameChar c = true)
    (hfinal : w ≠ "final".toList)
    (hmarker : ∀ marker ∈ ["AKR_DECL_COMP", "AKR_IMPLS"], ¬ marker.toList <:+: w) :
    IsHarmless w := by
  intro run hrun
  rw [identRuns_of_forall hw] at hrun
  rw [List.mem_singleton.mp hrun]
  exact ⟨hfinal, hmarker⟩

theorem isHarmless_nil : IsHarmless [] :=
  isHarmless_word (by simp) (by decide) (by decide)

private theorem isHarmless_classText : IsHarmless classText :=
  isHarmless_word (List.all_eq_true.mp rfl) (by decide) (by decide)

private theorem isHarmless_markText : IsHarmless markText := by
  have hrefl : IsHarmless "refl".toList :=
    isHarmless_word (List.all_eq_true.mp rfl) (by decide) (by decide)
  have hclose : IsHarmless ("refl".toList ++ ']' :: ([] ++ ']' :: [])) :=
    hrefl.append_cons (by decide) (isHarmless_nil.append_cons (by decide) isHarmless_nil)
  have hopen : IsHarmless ([] ++ '[' :: ([] ++ '[' :: ("refl".toList ++ ']' :: ([] ++ ']' :: [])))) :=
    isHarmless_nil.append_cons (by decide) (isHarmless_nil.append_cons (by decide) hclose)
  exact hopen

private theorem Identifier.isHarmless (name : Identifier) : IsHarmless name.chars := by
  apply isHarmless_word name.isNameChar_of_mem
  · intro he
    have htext : name.text.toList = "final".toList := he
    exact name.ne_final (String.toList_inj.mp htext)
  · exact name.no_marker

private theorem isHarmless_spacedText (tokens : List Token)
    (htokens : ∀ token ∈ tokens, IsHarmless token.text) {w : List Char} (hw : IsHarmless w) :
    IsHarmless (w ++ spacedText tokens) := by
  induction tokens generalizing w with
  | nil => simpa [spacedText] using hw
  | cons token tokens ih =>
    have hmore : IsHarmless (token.text ++ spacedText tokens) :=
      ih (fun t ht => htokens t (List.mem_cons_of_mem token ht)) (htokens token List.mem_cons_self)
    exact hw.append_cons (by decide) hmore

namespace MemberDescription

private theorem isHarmless_token (member : MemberDescription) :
    ∀ token ∈ member.tokens, IsHarmless token.text := by
  intro token ht
  simp only [tokens, TypeDescription.tokens, List.cons_append, List.mem_cons, List.mem_append,
    List.mem_map, List.not_mem_nil, or_false] at ht
  rcases ht with rfl | (⟨word, -, rfl⟩ | ⟨sign, -, rfl⟩) | rfl
  · exact member.type.first.isHarmless
  · exact word.isHarmless
  · have hsign : isNameChar sign.char = false := by cases sign <;> rfl
    exact isHarmless_nil.append_cons hsign isHarmless_nil
  · exact member.name.isHarmless

/-- What is written behind the last space of the declaration counts for itself. -/
private theorem isHarmless_source_append (member : MemberDescription) {cs : List Char}
    (hcs : IsHarmless cs) : IsHarmless (member.source ++ cs) := by
  have hhead : IsHarmless (markText ++ spacedText member.tokens) :=
    isHarmless_spacedText _ member.isHarmless_token isHarmless_markText
  have htext : ∃ closing, member.tail = closing ++ [' '] ∧ IsHarmless (closing ++ ' ' :: cs) := by
    unfold tail
    cases member.kind with
    | field => exact ⟨[], rfl, isHarmless_nil.append_cons (by decide) hcs⟩
    | method =>
      have hspace : IsHarmless ([] ++ ' ' :: cs) := isHarmless_nil.append_cons (by decide) hcs
      have hclosing : IsHarmless ([] ++ ')' :: ([] ++ ';' :: ([] ++ ' ' :: cs))) :=
        isHarmless_nil.append_cons (by decide) (isHarmless_nil.append_cons (by decide) hspace)
      exact ⟨[')', ';'], rfl, hclosing⟩
  obtain ⟨closing, htail, hrest⟩ := htext
  have hterminator : isNameChar member.kind.terminator = false := by cases member.kind <;> rfl
  have hwhole := hhead.append_cons hterminator hrest
  rw [source_eq, declText, htail]
  simpa using hwhole

end MemberDescription

private theorem isHarmless_membersText_append (members : List MemberDescription) {cs : List Char}
    (hcs : IsHarmless cs) : IsHarmless (membersText members ++ cs) := by
  induction members with
  | nil => exact hcs
  | cons member members ih =>
    rw [membersText, List.flatMap_cons, List.append_assoc]
    exact member.isHarmless_source_append ih

namespace ClassDescription

theorem isHarmless_source_append (decl : ClassDescription) {cs : List Char}
    (hcs : IsHarmless cs) : IsHarmless (decl.source ++ cs) := by
  have hend : IsHarmless ([] ++ '}' :: ([] ++ ';' :: ([] ++ '\n' :: cs))) :=
    isHarmless_nil.append_cons (by decide) (isHarmless_nil.append_cons (by decide)
      (isHarmless_nil.append_cons (by decide) hcs))
  have hinside : IsHarmless ([] ++ '{' :: ([] ++ ' ' ::
      (membersText decl.members ++ '}' :: ';' :: '\n' :: cs))) :=
    isHarmless_nil.append_cons (by decide) (isHarmless_nil.append_cons (by decide)
      (isHarmless_membersText_append decl.members hend))
  have hname := decl.name.isHarmless.append_cons (c := ' ') (by decide) hinside
  have hwhole := isHarmless_classText.append_cons (c := ' ') (by decide)
    (isHarmless_markText.append_cons (c := ' ') (by decide) hname)
  rw [source_eq]
  simpa [body, header, front] using hwhole

end ClassDescription

private theorem isHarmless_unitText (classes : List ClassDescription) :
    IsHarmless (unitText classes) := by
  induction classes with
  | nil => exact isHarmless_nil
  | cons decl classes ih =>
    rw [unitText, List.flatMap_cons]
    exact decl.isHarmless_source_append ih

theorem IsHarmless.not_infix {cs : List Char} (h : IsHarmless cs) {marker : String}
    (hm : marker ∈ ["AKR_DECL_COMP", "AKR_IMPLS"]) : ¬ marker.toList <:+: cs := by
  intro hin
  have hname : ∀ marker ∈ ["AKR_DECL_COMP", "AKR_IMPLS"],
      marker.toList.all isNameChar = true := by decide
  obtain ⟨run, hrun, hmarker⟩ :=
    exists_identRun_of_infix (List.all_eq_true.mp (hname marker hm)) hin
  exact (h run hrun).2 marker hm hmarker

theorem prepare_unitText (classes : List ClassDescription) :
    prepare "final".toList (unitText classes) = unitText classes := by
  have hsource : ∀ c, isSourceChar c = true → c ≠ '"' ∧ c ≠ '\'' ∧ c ≠ '/' := by
    intro c hc
    exact ⟨ne_of_class hc (by decide), ne_of_class hc (by decide), ne_of_class hc (by decide)⟩
  have hplain : ∀ c ∈ unitText classes, c ≠ '"' ∧ c ≠ '\'' ∧ c ≠ '/' := by
    intro c hc
    obtain ⟨decl, -, hc⟩ := List.mem_flatMap.mp hc
    simp only [ClassDescription.source_eq, ClassDescription.body, ClassDescription.header,
      List.mem_append, List.mem_cons, List.not_mem_nil, or_false] at hc
    rcases hc with (((hc | rfl) | rfl | hc) | rfl) | rfl | rfl
    · exact hsource c (decl.isSourceChar_of_mem_front c hc)
    · decide
    · decide
    · exact hsource c (isSourceChar_of_mem_membersText decl.members c hc)
    · decide
    · decide
    · decide
  have hfinal : "final".toList ∉ identRuns (unitText classes) := by
    intro hm
    exact (isHarmless_unitText classes _ hm).1 rfl
  rw [prepare, withoutComments_eq_self hplain]
  exact withoutKeyword_eq_self (List.all_eq_true.mp rfl) hfinal

end Reflector
