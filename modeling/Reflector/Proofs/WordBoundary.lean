import Reflector.Proofs.Header
import Reflector.Proofs.KeywordErasure
import Reflector.Source.Erasure
/-!
# Two notions of a word

Erasure takes a keyword for a word of its own where no identifier character stands beside it, and the
search for headers where both its ends are word boundaries. The second asks more: also a letter or a mark
of another script makes the keyword part of a longer word.
-/

namespace Reflector.Source

open Text

/-- Both ends of a word are word boundaries, as those of the keyword of a header are. -/
def IsWholeWord (left : Option Char) (word right : List Char) : Prop :=
  isWordBoundary left (word ++ right).head? = true ∧
    isWordBoundary (word.getLast?.or left) right.head? = true

instance (left : Option Char) (word right : List Char) : Decidable (IsWholeWord left word right) :=
  inferInstanceAs (Decidable (_ ∧ _))

/-- The character belongs to the words of some script, but to no identifier. -/
def isForeign (c : Char) : Bool :=
  isWord c && !isNameChar c

/-- A keyword stands with no identifier character beside it at a byte offset, in a text that starts at
`offset` behind the character `left`. -/
def StandsAt (keyword : List Char) (offset : Nat) (left : Option Char) (cs : List Char) (pos : Nat) :
    Prop :=
  ∃ a b, cs = a ++ (keyword ++ b) ∧ pos = offset + byteLength a ∧
    endsIdent (a.getLast?.or left) = true ∧ endsIdent b.head? = true

theorem traceErasure_snd (keyword : List Char) (offset : Nat) (left : Option Char) (cs : List Char) :
    (traceErasure keyword offset left cs).2 = eraseFrom keyword left cs := by
  fun_induction traceErasure keyword offset left cs with
  | case1 offset left cs rest h hnil =>
    subst hnil
    simp [eraseFrom, after?]
  | case2 offset left cs rest h hk _ erased text heq hends ih =>
    rw [heq] at ih
    rw [eraseFrom_of_after?_eq_some hk h, if_pos hends, ← ih]
  | case3 offset left cs rest h hk _ erased text heq hends ih =>
    rw [heq] at ih
    rw [eraseFrom_of_after?_eq_some hk h, if_neg hends, ← ih]
  | case4 offset left h =>
    rw [eraseFrom.eq_def]
    split <;> simp_all
  | case5 offset left c rest h erased text heq ih =>
    rw [heq] at ih
    rw [eraseFrom_cons_of_after?_eq_none h, ← ih]

section

variable {keyword : List Char} (hne : keyword ≠ []) (hk : ∀ c ∈ keyword, isNameChar c = true)
  {offset pos : Nat} {left : Option Char}

private theorem standsAt_cons {c : Char} {cs : List Char} (h : after? keyword (c :: cs) = none) :
    StandsAt keyword offset left (c :: cs) pos ↔
      StandsAt keyword (offset + c.utf8Size) (some c) cs pos := by
  constructor
  · rintro ⟨a, b, htext, rfl, ha, hb⟩
    cases a with
    | nil =>
      rw [htext, List.nil_append, after?_append] at h
      contradiction
    | cons d a =>
      obtain ⟨rfl, rfl⟩ := List.cons.inj htext
      rw [getLast?_cons_or] at ha
      exact ⟨a, b, rfl, by rw [byteLength_cons, Nat.add_assoc], ha, hb⟩
  · rintro ⟨a, b, rfl, rfl, ha, hb⟩
    exact ⟨c :: a, b, rfl, by rw [byteLength_cons, Nat.add_assoc], by rwa [getLast?_cons_or], hb⟩

include hne

private theorem standsAt_nil : ¬ StandsAt keyword offset left [] pos := by
  rintro ⟨a, b, htext, -⟩
  exact hne (List.append_eq_nil_iff.mp (List.append_eq_nil_iff.mp htext.symm).2).1

include hk

/-- Occurrences that overlap are never both considered: the later one would begin inside an identifier. -/
private theorem standsAt_append {cs : List Char} :
    StandsAt keyword offset left (keyword ++ cs) pos ↔
      (pos = offset ∧ endsIdent left = true ∧ endsIdent cs.head? = true) ∨
        StandsAt keyword (offset + byteLength keyword) keyword.getLast? cs pos := by
  constructor
  · rintro ⟨a, b, htext, rfl, ha, hb⟩
    rcases List.append_eq_append_iff.mp htext with ⟨a, rfl, hcs⟩ | ⟨more, hmore, -⟩
    · rw [getLast?_append_or hne] at ha
      exact Or.inr ⟨a, b, hcs, by rw [byteLength_append, Nat.add_assoc], ha, hb⟩
    · cases a with
      | nil =>
        obtain rfl := List.append_cancel_left htext
        exact Or.inl ⟨rfl, ha, hb⟩
      | cons d a =>
        have hinside : endsIdent (d :: a).getLast? = false :=
          endsIdent_getLast? (List.cons_ne_nil d a) fun c hc =>
            hk c (hmore ▸ List.mem_append_left more hc)
        rw [Option.or_of_isSome (by simp), hinside] at ha
        contradiction
  · rintro (⟨rfl, hl, hr⟩ | ⟨a, b, rfl, rfl, ha, hb⟩)
    · exact ⟨[], cs, rfl, rfl, hl, hr⟩
    · exact ⟨keyword ++ a, b, by rw [List.append_assoc], by rw [byteLength_append, Nat.add_assoc],
        by rwa [getLast?_append_or hne], hb⟩

private theorem mem_traceErasure_iff {cs : List Char} :
    pos ∈ (traceErasure keyword offset left cs).1 ↔ StandsAt keyword offset left cs pos := by
  fun_induction traceErasure keyword offset left cs with
  | case1 offset left cs rest h hnil => exact absurd hnil hne
  | case2 offset left cs rest h _ _ erased text heq hends ih =>
    obtain rfl := after?_eq_some_iff.mp h
    rw [heq] at ih
    rw [standsAt_append hne hk, ← ih]
    simp_all
  | case3 offset left cs rest h _ _ erased text heq hends ih =>
    obtain rfl := after?_eq_some_iff.mp h
    rw [heq] at ih
    rw [standsAt_append hne hk, ← ih]
    simp_all
  | case4 offset left h => exact iff_of_false List.not_mem_nil (standsAt_nil hne)
  | case5 offset left c rest h erased text heq ih =>
    rw [heq] at ih
    rw [standsAt_cons h, ← ih]

private theorem mem_erasedOffsets_iff (a b : List Char) :
    byteLength a ∈ erasedOffsets keyword (a ++ (keyword ++ b)) ↔
      endsIdent a.getLast? = true ∧ endsIdent b.head? = true := by
  rw [erasedOffsets, mem_traceErasure_iff hne hk]
  constructor
  · rintro ⟨a', b', htext, hpos, ha, hb⟩
    rw [Nat.zero_add] at hpos
    obtain ⟨rfl, hrest⟩ := append_inj_of_byteLength htext hpos
    obtain rfl := List.append_cancel_left hrest
    rw [Option.or_none] at ha
    exact ⟨ha, hb⟩
  · rintro ⟨ha, hb⟩
    exact ⟨a, b, rfl, (Nat.zero_add _).symm, by rwa [Option.or_none], hb⟩

end

/-- Beside an identifier character there is a word boundary unless another one follows, or a foreign
character. -/
private theorem isWordBoundary_iff {c : Char} (hc : isNameChar c = true) (neighbour : Option Char) :
    isWordBoundary neighbour (some c) = true ↔
      endsIdent neighbour = true ∧ ∀ d ∈ neighbour, isForeign d = false := by
  have hword : isWord c = true := isWord_of_isNameChar hc
  cases neighbour with
  | none => simp [isWordBoundary, endsIdent, hword]
  | some d =>
    have hname : isNameChar d = true → isWord d = true := isWord_of_isNameChar
    cases hd : isWord d <;> cases hn : isNameChar d <;>
      simp_all [isWordBoundary, endsIdent, isForeign]

private theorem isWholeWord_iff {keyword : List Char} (hne : keyword ≠ [])
    (hk : ∀ c ∈ keyword, isNameChar c = true) (left : Option Char) (right : List Char) :
    IsWholeWord left keyword right ↔
      (endsIdent left = true ∧ endsIdent right.head? = true) ∧
        (∀ c ∈ left, isForeign c = false) ∧ ∀ c ∈ right.head?, isForeign c = false := by
  have hbegin : (keyword ++ right).head? = some (keyword.head hne) := by
    rw [List.head?_append, List.head?_eq_some_head hne, Option.some_or]
  rw [IsWholeWord, hbegin, List.getLast?_eq_some_getLast hne, Option.some_or,
    isWordBoundary_comm (some _), isWordBoundary_iff (hk _ (List.head_mem hne)),
    isWordBoundary_iff (hk _ (List.getLast_mem hne)), and_and_and_comm]

/-- A header begins with the keyword where this is a whole word and an opening brace is reached. -/
theorem isSome_match?_iff {keyword : List Char} (left : Option Char) (right : List Char) :
    ((headerPattern [keyword]).match? left (keyword ++ right)).isSome = true ↔
      IsWholeWord left keyword right ∧
        ∃ run rest, (∀ c ∈ run, isHeaderChar c = true) ∧ right = run ++ '{' :: rest := by
  have hmatch : (headerPattern [keyword]).match? left (keyword ++ right) =
      headerOf? left (keyword ++ right) keyword := by
    change (alternatives [keyword]).findSome? (headerOf? left (keyword ++ right)) = _
    rw [alternatives, if_neg (List.cons_ne_nil keyword []), List.findSome?_singleton]
  rw [hmatch, Option.isSome_iff_exists]
  constructor
  · rintro ⟨⟨piece, rest⟩, hread⟩
    obtain ⟨run, hrun, -, htext, hbegin, hend⟩ := headerOf?_eq_some_iff.mp hread
    obtain rfl := List.append_cancel_left htext
    exact ⟨⟨hbegin, hend⟩, run, rest, hrun, rfl⟩
  · rintro ⟨⟨hbegin, hend⟩, run, rest, hrun, rfl⟩
    exact ⟨_, headerOf?_eq_some_iff.mpr ⟨run, hrun, rfl, rfl, hbegin, hend⟩⟩

/-- An occurrence of the keyword is erased exactly if no identifier character stands beside it. It is a
whole word, where a header can begin with it, exactly if it is erased and no foreign character stands
beside it. So every whole word is erased, and the two notions part where such a character does. -/
theorem erasedOffsets_wholeWords {keyword : List Char} (hne : keyword ≠ [])
    (hk : ∀ c ∈ keyword, isNameChar c = true) (a b : List Char) :
    (traceErasure keyword 0 none (a ++ (keyword ++ b))).2 =
        withoutKeyword keyword (a ++ (keyword ++ b)) ∧
      (byteLength a ∈ erasedOffsets keyword (a ++ (keyword ++ b)) ↔
        endsIdent a.getLast? = true ∧ endsIdent b.head? = true) ∧
      (IsWholeWord a.getLast? keyword b ↔
        byteLength a ∈ erasedOffsets keyword (a ++ (keyword ++ b)) ∧
          (∀ c ∈ a.getLast?, isForeign c = false) ∧ ∀ c ∈ b.head?, isForeign c = false) ∧
      (((headerPattern [keyword]).match? a.getLast? (keyword ++ b)).isSome = true ↔
        IsWholeWord a.getLast? keyword b ∧
          ∃ run rest, (∀ c ∈ run, isHeaderChar c = true) ∧ b = run ++ '{' :: rest) := by
  have herased := mem_erasedOffsets_iff hne hk a b
  refine ⟨traceErasure_snd keyword 0 none _, herased, ?_, isSome_match?_iff a.getLast? b⟩
  rw [herased]
  exact isWholeWord_iff hne hk a.getLast? b

/-- A keyword between a dot and a bracket, with letters of other scripts further off. -/
theorem erasedOffsets_wholeWords_bracketed :
    IsWholeWord (some '.') "final".toList "(é)\x7b".toList ∧
      byteLength "Δ.".toList ∈
        erasedOffsets "final".toList ("Δ.".toList ++ ("final".toList ++ "(é)\x7b".toList)) := by
  have hne : "final".toList ≠ [] := by decide
  have hk : ∀ c ∈ "final".toList, isNameChar c = true := List.all_eq_true.mp rfl
  obtain ⟨-, herased, hwhole, -⟩ :=
    erasedOffsets_wholeWords hne hk "Δ.".toList "(é)\x7b".toList
  have hmem := herased.mpr ⟨by decide, by decide⟩
  have hforeign : isForeign '.' = false ∧ isForeign '(' = false := by decide +kernel
  refine ⟨hwhole.mpr ⟨hmem, ?_, ?_⟩, hmem⟩
  · rintro _ ⟨⟩
    exact hforeign.1
  · rintro _ ⟨⟩
    exact hforeign.2

/-- A letter of another script before the keyword makes one identifier of both. No header could begin
there, but the keyword is erased from it. -/
theorem exists_erasedOffset_not_isWholeWord :
    byteLength "int é".toList ∈
        erasedOffsets "final".toList ("int é".toList ++ ("final".toList ++ [';'])) ∧
      ¬ IsWholeWord (some 'é') "final".toList [';'] ∧
      withoutKeyword "final".toList "int éfinal;".toList = "int é;".toList :=
  ⟨by decide +kernel, by decide +kernel, by decide +kernel⟩

end Reflector.Source
