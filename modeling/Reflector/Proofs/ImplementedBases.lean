import Mathlib.Data.List.Forall2
import Reflector.Class.Bases
import Reflector.Proofs.Extraction
/-!
# The bases that a body names

The search for an implements clause stops at the first place where the macro, blanks and an opening
parenthesis stand and a closing one comes later. Whatever stands before that place or behind the clause
has no say in the bases.
-/

namespace Reflector

open Text

/-- An implements clause in a text. Its arguments reach to the first closing parenthesis. -/
structure PlacedClause (macroName text : List Char) where
  before : List Char
  blanks : List Char
  arguments : List Char
  after : List Char
  text_eq : text = before ++ (macroName ++ (blanks ++ '(' :: (arguments ++ ')' :: after)))
  isBlank_blanks : ∀ c ∈ blanks, isBlank c = true
  not_mem_arguments : ')' ∉ arguments

namespace PlacedClause

variable {macroName text : List Char}

def offset (clause : PlacedClause macroName text) : Nat :=
  byteLength clause.before

def front (clause : PlacedClause macroName text) : List Char :=
  clause.before ++ (macroName ++ (clause.blanks ++ '(' :: (clause.arguments ++ [')'])))

/-- No clause begins further left. -/
def IsFirst (clause : PlacedClause macroName text) : Prop :=
  ∀ other : PlacedClause macroName text, clause.offset ≤ other.offset

end PlacedClause

/-- The entries are what lies between the commas of an argument list without the blanks around it, the
empty ones left out. -/
def ListsEntries (arguments : List Char) (entries : List (List Char)) : Prop :=
  ∃ parts cores, parts ≠ [] ∧ [','].intercalate parts = arguments ∧ (∀ part ∈ parts, ',' ∉ part) ∧
    List.Forall₂ (TrimsTo isBlank) parts cores ∧ entries = cores.filter (· ≠ [])

/-- The text can be an entry: it is not empty, has no comma or closing parenthesis in it, and no blank at
either end. -/
structure IsEntry (entry : List Char) : Prop where
  ne_nil : entry ≠ []
  comma : ',' ∉ entry
  parenthesis : ')' ∉ entry
  head : ∀ c ∈ entry.head?, isBlank c = false
  last : ∀ c ∈ entry.getLast?, isBlank c = false

private theorem implsClause?_eq_some_iff {macroName cs blanks arguments rest : List Char} :
    implsClause? macroName cs = some (blanks, arguments, rest) ↔
      cs = macroName ++ (blanks ++ '(' :: (arguments ++ ')' :: rest)) ∧
        (∀ c ∈ blanks, isBlank c = true) ∧ ')' ∉ arguments := by
  simp only [implsClause?, bind, Option.bind_eq_some_iff, pure, Option.some.injEq, Prod.mk.injEq,
    after?_eq_some_iff]
  constructor
  · rintro ⟨tail, rfl, inside, hinside, behind, hbehind, rfl, rfl, rfl⟩
    have htail := List.takeWhile_append_dropWhile (p := isBlank) (l := tail)
    have hsplit := List.takeWhile_append_dropWhile (p := (· != ')')) (l := inside)
    rw [hinside] at htail
    rw [hbehind] at hsplit
    refine ⟨?_, List.all_eq_true.mp List.all_takeWhile, not_mem_takeWhile_ne ')' inside⟩
    conv_lhs => rw [← htail, ← hsplit]
    rfl
  · rintro ⟨rfl, hblanks, harguments⟩
    have hopen : ¬ isBlank '(' = true := by decide
    refine ⟨_, rfl, arguments ++ ')' :: rest, ?_, rest, ?_, ?_, ?_, rfl⟩
    · rw [List.dropWhile_append_of_pos hblanks, List.dropWhile_cons_of_neg hopen]
      rfl
    · rw [dropWhile_ne_append harguments]
      rfl
    · rw [List.takeWhile_append_of_pos hblanks, List.takeWhile_cons_of_neg hopen, List.append_nil]
    · rw [takeWhile_ne_append harguments]

namespace PlacedClause

variable {macroName text : List Char}

/-- Where the macro, blanks and an opening parenthesis stand, a clause begins if any closing parenthesis
comes later. -/
private theorem exists_of_opening {before blanks rest : List Char}
    (h : text = before ++ (macroName ++ (blanks ++ '(' :: rest)))
    (hblanks : ∀ c ∈ blanks, isBlank c = true) (hrest : ')' ∈ rest) :
    ∃ clause : PlacedClause macroName text, clause.before = before := by
  obtain ⟨arguments, after, rfl, hfirst⟩ := List.eq_append_cons_of_mem hrest
  exact ⟨⟨before, blanks, arguments, after, h, hblanks, hfirst⟩, rfl⟩

def rest (clause : PlacedClause macroName text) : List Char :=
  macroName ++ (clause.blanks ++ '(' :: (clause.arguments ++ ')' :: clause.after))

private theorem implsClause?_rest (clause : PlacedClause macroName text) :
    implsClause? macroName clause.rest = some (clause.blanks, clause.arguments, clause.after) :=
  implsClause?_eq_some_iff.mpr ⟨rfl, clause.isBlank_blanks, clause.not_mem_arguments⟩

private theorem match?_rest_ne_none (clause : PlacedClause macroName text) (left : Option Char) :
    (implsPattern macroName).match? left clause.rest ≠ none := by
  change (implsClause? macroName clause.rest).map _ ≠ none
  rw [clause.implsClause?_rest]
  exact Option.some_ne_none _

private theorem exists_of_find? {o : Occurrence}
    (h : (implsPattern macroName).find? none text = some o) :
    ∃ clause : PlacedClause macroName text, clause.IsFirst ∧ o.piece ++ o.after = clause.rest := by
  obtain ⟨htext, hmatch, hleft⟩ := Pattern.find?_eq_some h
  obtain ⟨⟨blanks, arguments, after⟩, hclause, -⟩ := Option.map_eq_some_iff.mp hmatch
  obtain ⟨hrest, hblanks, harguments⟩ := implsClause?_eq_some_iff.mp hclause
  refine ⟨⟨o.before, blanks, arguments, after, hrest ▸ htext, hblanks, harguments⟩, ?_, hrest⟩
  intro other
  by_contra hlt
  have hlength := length_lt_of_byteLength_lt (other.text_eq.symm.trans htext) (Nat.lt_of_not_le hlt)
  exact other.match?_rest_ne_none _ (hleft _ _ other.text_eq hlength)

private theorem exists_isFirst (h : Nonempty (PlacedClause macroName text)) :
    ∃ clause : PlacedClause macroName text, clause.IsFirst := by
  obtain ⟨clause⟩ := h
  cases hfind : (implsPattern macroName).find? none text with
  | none => exact absurd (Pattern.find?_eq_none hfind clause.text_eq) (clause.match?_rest_ne_none _)
  | some o =>
    obtain ⟨found, hfound, -⟩ := exists_of_find? hfind
    exact ⟨found, hfound⟩

private theorem rest_eq_of_isFirst {clause other : PlacedClause macroName text} (h : clause.IsFirst)
    (h' : other.IsFirst) : clause.rest = other.rest := by
  have hlength : byteLength clause.before = byteLength other.before := Nat.le_antisymm (h other) (h' clause)
  exact (append_inj_of_byteLength (clause.text_eq.symm.trans other.text_eq) hlength).2

theorem namedBases_eq (clause : PlacedClause macroName text) (h : clause.IsFirst) :
    namedBases macroName text = (argumentNames clause.arguments).map String.ofList := by
  unfold namedBases
  split
  · rename_i hnone
    exact absurd (Pattern.find?_eq_none hnone clause.text_eq) (clause.match?_rest_ne_none _)
  · rename_i o ho
    obtain ⟨found, hfound, hrest⟩ := exists_of_find? ho
    rw [hrest, rest_eq_of_isFirst hfound h, clause.implsClause?_rest]

private theorem namedBases_of_isEmpty (h : IsEmpty (PlacedClause macroName text)) :
    namedBases macroName text = [] := by
  unfold namedBases
  split
  · rfl
  · rename_i o ho
    obtain ⟨found, -⟩ := exists_of_find? ho
    exact h.elim found

def withAfter (clause : PlacedClause macroName text) (tail : List Char) :
    PlacedClause macroName (clause.front ++ tail) where
  before := clause.before
  blanks := clause.blanks
  arguments := clause.arguments
  after := tail
  text_eq := by simp [front]
  isBlank_blanks := clause.isBlank_blanks
  not_mem_arguments := clause.not_mem_arguments

/-- Of two clauses, the one that begins further left opens its parenthesis no later than the other. -/
private theorem exists_of_offset_lt {clause other : PlacedClause macroName text}
    (h : other.offset < clause.offset) :
    ∃ inside, clause.before ++ macroName ++ clause.blanks ++ ['('] =
      other.before ++ macroName ++ (other.blanks ++ '(' :: inside) := by
  have hopen : '(' ∉ other.blanks := fun hm => absurd (other.isBlank_blanks _ hm) (by decide)
  have htext : other.before ++ macroName ++
        (other.blanks ++ '(' :: (other.arguments ++ ')' :: other.after)) =
      clause.before ++ macroName ++ clause.blanks ++
        '(' :: (clause.arguments ++ ')' :: clause.after) := by
    simpa using other.text_eq.symm.trans clause.text_eq
  have hle : byteLength (other.before ++ macroName) ≤
      byteLength (clause.before ++ macroName ++ clause.blanks) := by
    simp only [offset] at h
    simp only [byteLength_append]
    omega
  obtain ⟨more, hmore, hbehind⟩ := exists_append_of_byteLength_le htext hle
  have hsplit : (more ++ ['(']) ++ (clause.arguments ++ ')' :: clause.after) =
      other.blanks ++ '(' :: (other.arguments ++ ')' :: other.after) := by
    rw [hbehind, List.append_assoc]
    rfl
  obtain ⟨inside, hinside, -⟩ := exists_append_of_first hsplit hopen (by simp)
  exact ⟨inside, by rw [hmore, List.append_assoc _ more, hinside]⟩

/-- A clause further left would be one of the original text as well, as it opens before the first clause
closes. -/
theorem isFirst_withAfter {clause : PlacedClause macroName text} (h : clause.IsFirst)
    (tail : List Char) : (clause.withAfter tail).IsFirst := by
  intro other
  by_contra hlt
  obtain ⟨inside, hfront⟩ := exists_of_offset_lt (Nat.lt_of_not_le hlt)
  have htext : text = other.before ++ (macroName ++
      (other.blanks ++ '(' :: (inside ++ (clause.arguments ++ ')' :: clause.after)))) :=
    calc text = clause.before ++ macroName ++ clause.blanks ++ ['('] ++
          (clause.arguments ++ ')' :: clause.after) := clause.text_eq.trans (by simp)
      _ = other.before ++ macroName ++ (other.blanks ++ '(' :: inside) ++
          (clause.arguments ++ ')' :: clause.after) := congrArg (· ++ _) hfront
      _ = _ := by simp
  obtain ⟨found, hfound⟩ := exists_of_opening htext other.isBlank_blanks (by simp)
  have hfirst : byteLength clause.before ≤ byteLength found.before := h found
  rw [hfound] at hfirst
  exact hlt hfirst

end PlacedClause

private theorem mem_of_mem_splitOn {c sep : Char} {cs part : List Char}
    (hpart : part ∈ cs.splitOn sep)
    (hc : c ∈ part) : c ∈ cs ∧ c ≠ sep := by
  induction cs generalizing part with
  | nil =>
    obtain rfl : part = [] := by simpa [List.splitOn_nil] using hpart
    exact absurd hc List.not_mem_nil
  | cons d cs ih =>
    rw [List.splitOn_cons_eq_if_modifyHead] at hpart
    split at hpart
    · rcases List.mem_cons.mp hpart with rfl | hpart
      · exact absurd hc List.not_mem_nil
      · exact (ih hpart hc).imp_left (List.mem_cons_of_mem d)
    · rename_i hsep
      obtain ⟨first, parts, hparts⟩ := List.exists_cons_of_ne_nil (List.splitOn_ne_nil sep cs)
      rw [hparts, List.modifyHead_cons, List.mem_cons] at hpart
      rcases hpart with rfl | hpart
      · rcases List.mem_cons.mp hc with rfl | hc
        · exact ⟨List.mem_cons_self, by simpa using hsep⟩
        · exact (ih (by simp [hparts]) hc).imp_left (List.mem_cons_of_mem d)
      · exact (ih (by simp [hparts, hpart]) hc).imp_left (List.mem_cons_of_mem d)

private theorem argumentNames_listsEntries (arguments : List Char) :
    ListsEntries arguments (argumentNames arguments) :=
  ⟨arguments.splitOn ',', (arguments.splitOn ',').map (trim isBlank), List.splitOn_ne_nil _ _,
    List.intercalate_splitOn _, fun _ hpart hc => (mem_of_mem_splitOn hpart hc).2 rfl,
    List.forall₂_map_right_iff.mpr (List.forall₂_same.mpr fun part _ => trimsTo_trim isBlank part),
    rfl⟩

private theorem argumentNames_isEntry {arguments name : List Char}
    (hname : name ∈ argumentNames arguments)
    (harguments : ')' ∉ arguments) : IsEntry name := by
  obtain ⟨hmem, hne⟩ := List.mem_filter.mp hname
  obtain ⟨part, hpart, rfl⟩ := List.mem_map.mp hmem
  have htrim := trimsTo_trim isBlank part
  obtain ⟨front, back, htext, -⟩ := htrim.text
  have hsub : ∀ c ∈ trim isBlank part, c ∈ part := by
    intro c hc
    rw [htext]
    simp [hc]
  exact ⟨by simpa using hne, fun hc => (mem_of_mem_splitOn hpart (hsub _ hc)).2 rfl,
    fun hc => harguments (mem_of_mem_splitOn hpart (hsub _ hc)).1, htrim.head, htrim.last⟩

/-- Without an implements clause a body names no bases. Otherwise there is a first clause, the bases are
its entries, and a change behind it does not change them. -/
theorem namedBases_firstClause (macroName body : List Char) :
    (IsEmpty (PlacedClause macroName body) → namedBases macroName body = []) ∧
      (Nonempty (PlacedClause macroName body) →
        ∃ clause : PlacedClause macroName body, clause.IsFirst) ∧
      (∀ clause : PlacedClause macroName body, clause.IsFirst →
        ListsEntries clause.arguments ((namedBases macroName body).map String.toList) ∧
          ∀ tail, namedBases macroName (clause.front ++ tail) = namedBases macroName body) ∧
      ∀ base ∈ namedBases macroName body, IsEntry base.toList := by
  refine ⟨PlacedClause.namedBases_of_isEmpty, PlacedClause.exists_isFirst, ?first, ?entries⟩
  case first =>
    intro clause hfirst
    have hbases := clause.namedBases_eq hfirst
    refine ⟨?_, fun tail => ?_⟩
    · rw [hbases, List.map_map]
      simpa [Function.comp_def] using argumentNames_listsEntries clause.arguments
    · rw [(clause.withAfter tail).namedBases_eq (PlacedClause.isFirst_withAfter hfirst tail), hbases]
      rfl
  case entries =>
    intro base hbase
    by_cases hany : Nonempty (PlacedClause macroName body)
    · obtain ⟨clause, hfirst⟩ := PlacedClause.exists_isFirst hany
      rw [clause.namedBases_eq hfirst] at hbase
      obtain ⟨name, hname, rfl⟩ := List.mem_map.mp hbase
      rw [String.toList_ofList]
      exact argumentNames_isEntry hname clause.not_mem_arguments
    · rw [PlacedClause.namedBases_of_isEmpty ⟨fun clause => hany ⟨clause⟩⟩] at hbase
      exact absurd hbase List.not_mem_nil

/-- The macro is taken as it is written, and its first occurrence opens no clause. -/
example : namedBases "A(*".toList "A(* x; A(*\u00a0( B,, C<D> ,B\n) E)".toList = ["B", "C<D>", "B"] := by
  decide +kernel

end Reflector
