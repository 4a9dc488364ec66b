import Mathlib.Data.List.Pairwise
import Mathlib.Data.List.SplitBy
import Reflector.Proofs.ByteSource
import Reflector.Proofs.KeywordErasure

namespace Reflector.Source

open Text

/-- The pieces of a text: its longest identifier runs, and every other character by itself. -/
def identPieces (cs : List Char) : List (List Char) :=
  cs.splitBy fun a b => isNameChar a && isNameChar b

/-- The word stands somewhere in the text with no identifier character beside it. -/
def StandsAlone (word cs : List Char) : Prop :=
  ∃ a b, cs = a ++ (word ++ b) ∧ endsIdent a.getLast? = true ∧ endsIdent b.head? = true

private theorem mem_identRuns_iff {w cs : List Char} (hw : ∀ c ∈ w, isNameChar c = true) :
    w ∈ identRuns cs ↔ StandsAlone w cs := by
  constructor
  · exact exists_append_of_mem_identRuns
  · rintro ⟨a, b, rfl, ha, hb⟩
    exact mem_identRuns hw ha hb

private theorem identPieces_of_forall {w : List Char} (hne : w ≠ [])
    (hw : ∀ c ∈ w, isNameChar c = true) :
    identPieces w = [w] := by
  have hpairs : w.Pairwise fun a b => (isNameChar a && isNameChar b) = true :=
    List.pairwise_of_forall_mem_list fun a ha b hb => by rw [hw a ha, hw b hb]; rfl
  exact List.splitBy_of_isChain hne hpairs.isChain

/-- A character of another kind parts the pieces before it from those behind it. -/
private theorem identPieces_append_cons {sep : Char} (h : isNameChar sep = false) (a b : List Char) :
    identPieces (a ++ sep :: b) = identPieces a ++ [sep] :: identPieces b := by
  have hleft : identPieces (a ++ sep :: b) = identPieces a ++ identPieces (sep :: b) :=
    List.splitBy_append_cons b fun c _ => by rw [h, Bool.and_false]
  have hright : identPieces ([sep] ++ b) = identPieces [sep] ++ identPieces b :=
    List.splitBy_append fun c hc d _ => by
      rw [List.getLast?_singleton, Option.mem_some_iff] at hc
      rw [← hc, h, Bool.false_and]
  rw [hleft]
  exact congrArg _ hright

section

variable {keyword : List Char} (hne : keyword ≠ []) (hk : ∀ c ∈ keyword, isNameChar c = true)

include hne hk

private theorem withoutKeyword_eq_flatten (cs : List Char) :
    withoutKeyword keyword cs = ((identPieces cs).filter (· ≠ keyword)).flatten := by
  have hrun : ∀ w, (∀ c ∈ w, isNameChar c = true) →
      withoutKeyword keyword w = ((identPieces w).filter (· ≠ keyword)).flatten := by
    intro w hw
    by_cases hempty : w = []
    · rw [hempty, withoutKeyword, eraseFrom_nil hne]
      rfl
    rw [identPieces_of_forall hempty hw]
    by_cases h : w = keyword
    · rw [h, withoutKeyword_self hne]
      simp
    · rw [withoutKeyword_eq_self hk (by simpa [identRuns_of_forall hw] using Ne.symm h)]
      simp [h]
  induction cs using identRun_induction with
  | run w hw => exact hrun w hw
  | append_cons w sep cs hw hsep ih =>
    have hseam : endsIdent (sep :: cs).head? = true := by simp [endsIdent, hsep]
    have hother : [sep] ≠ keyword := by
      rintro rfl
      rw [hk sep (List.mem_singleton_self sep)] at hsep
      contradiction
    rw [withoutKeyword_append hne hk (Or.inr hseam), withoutKeyword_cons hne hk hsep, hrun w hw, ih,
      identPieces_append_cons hsep, List.filter_append, List.filter_cons_of_pos (by simpa using hother),
      List.flatten_append, List.flatten_cons, List.singleton_append]

private theorem not_standsAlone_withoutKeyword (cs : List Char) :
    ¬ StandsAlone keyword (withoutKeyword keyword cs) :=
  mt (mem_identRuns_iff hk).mpr (not_mem_identRuns_withoutKeyword hne hk cs)

private theorem withoutKeyword_eq_self_iff (cs : List Char) :
    withoutKeyword keyword cs = cs ↔ ¬ StandsAlone keyword cs := by
  constructor
  · intro h
    rw [← h]
    exact not_standsAlone_withoutKeyword hne hk cs
  · intro h
    exact withoutKeyword_eq_self hk (mt (mem_identRuns_iff hk).mp h)

/-- Erasure takes out exactly the pieces that are the keyword, whether it walks over the text or over the
offsets of the occurrences. The keyword stands alone nowhere in what is left, so that a second erasure
changes nothing, and a first one changes a text exactly if the keyword stands alone in it. -/
theorem withoutKeyword_erasesRuns (cs : List Char) :
    Bytes.withoutKeywordAt? (byteLength keyword) cs 0 (Bytes.matchOffsets keyword 0 cs) =
        some (withoutKeyword keyword cs) ∧
      withoutKeyword keyword cs = ((identPieces cs).filter (· ≠ keyword)).flatten ∧
      ¬ StandsAlone keyword (withoutKeyword keyword cs) ∧
      withoutKeyword keyword (withoutKeyword keyword cs) = withoutKeyword keyword cs ∧
      (withoutKeyword keyword cs = cs ↔ ¬ StandsAlone keyword cs) := by
  have hgone := not_standsAlone_withoutKeyword hne hk cs
  refine ⟨Bytes.withoutKeywordAt?_eq hne [] [] rfl rfl, withoutKeyword_eq_flatten hne hk cs, hgone, ?_,
    withoutKeyword_eq_self_iff hne hk cs⟩
  exact (withoutKeyword_eq_self_iff hne hk _).mpr hgone

end

/-- A keyword that overlaps itself: the first two occurrences are part of longer runs. -/
theorem withoutKeyword_erasesRuns_overlapping :
    (['a', 'a'] : List Char) ≠ [] ∧ (∀ c ∈ ['a', 'a'], isNameChar c = true) ∧
      withoutKeyword ['a', 'a'] "aaa aaaa aa.aa".toList = "aaa aaaa .".toList := by
  have hne : (['a', 'a'] : List Char) ≠ [] := List.cons_ne_nil 'a' ['a']
  have hk : ∀ c ∈ ['a', 'a'], isNameChar c = true := List.all_eq_true.mp rfl
  obtain ⟨-, hpieces, -⟩ := withoutKeyword_erasesRuns hne hk "aaa aaaa aa.aa".toList
  refine ⟨hne, hk, hpieces.trans ?_⟩
  decide

end Reflector.Source
