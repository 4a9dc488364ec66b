import Reflector.Class.Members
import Reflector.Proofs.EncodingOrder
import Reflector.Proofs.Sweep
/-!
# What a record holds

The record of a class is decided by its text and by what the reader answers at the marks. A sweep over
what follows the header finds every mark once, the names read there are listed in their order, and the
record lists each of them where it occurs first.
-/

namespace Reflector.Text

/-- The text splits at the byte offset. -/
def IsBoundary (cs : List Char) (pos : Nat) : Prop :=
  (splitAtByte? pos cs).isSome = true

instance (cs : List Char) (pos : Nat) : Decidable (IsBoundary cs pos) :=
  inferInstanceAs (Decidable ((splitAtByte? pos cs).isSome = true))

theorem IsBoundary.exists_append {cs : List Char} {pos : Nat} (h : IsBoundary cs pos) :
    ∃ before after, cs = before ++ after ∧ byteLength before = pos := by
  obtain ⟨⟨before, after⟩, hsplit⟩ := Option.isSome_iff_exists.mp h
  exact ⟨before, after, splitAtByte?_eq_some_iff.mp hsplit⟩

/-- The piece of a text between two byte offsets. -/
def StandsBetween (cs : List Char) (start stop : Nat) (piece : List Char) : Prop :=
  ∃ before after, cs = before ++ piece ++ after ∧ byteLength before = start ∧
    byteLength (before ++ piece) = stop

theorem standsBetween_slice {cs : List Char} {start stop : Nat} (hstart : IsBoundary cs start)
    (hstop : IsBoundary cs stop) (hle : start ≤ stop) :
    StandsBetween cs start stop (slice start stop cs) := by
  obtain ⟨before, rest, hbefore, rfl⟩ := hstart.exists_append
  obtain ⟨through, after, hthrough, rfl⟩ := hstop.exists_append
  obtain ⟨piece, rfl, -⟩ := exists_append_of_byteLength_le (hbefore.symm.trans hthrough) hle
  refine ⟨before, after, ?_, rfl, ?_⟩
  · rw [hthrough, byteLength_append, slice_byteLength]
  · rw [hthrough, byteLength_append before piece, slice_byteLength, byteLength_append]

/-- The core is left when the longest runs of these characters are taken off both ends of a text. -/
structure TrimsTo (p : Char → Bool) (cs core : List Char) : Prop where
  text : ∃ front back, cs = front ++ core ++ back ∧ (∀ c ∈ front, p c = true) ∧
    ∀ c ∈ back, p c = true
  head : ∀ c ∈ core.head?, p c = false
  last : ∀ c ∈ core.getLast?, p c = false

theorem trimsTo_trim (p : Char → Bool) (cs : List Char) : TrimsTo p cs (trim p cs) := by
  have hback : ∃ back, cs.dropWhile p = trim p cs ++ back ∧ ∀ c ∈ back, p c = true := by
    refine ⟨((cs.dropWhile p).reverse.takeWhile p).reverse, ?_, ?_⟩
    · rw [trim, trimEnd, ← List.reverse_append, List.takeWhile_append_dropWhile,
        List.reverse_reverse]
    · intro c hc
      exact List.all_eq_true.mp List.all_takeWhile c (List.mem_reverse.mp hc)
  obtain ⟨back, hdrop, hback⟩ := hback
  refine ⟨⟨cs.takeWhile p, back, ?_, List.all_eq_true.mp List.all_takeWhile, hback⟩, ?_, ?_⟩
  · rw [List.append_assoc, ← hdrop, List.takeWhile_append_dropWhile]
  · intro c hc
    have hhead := List.head?_dropWhile_not p cs
    obtain ⟨rest, hrest⟩ := List.head?_eq_some_iff.mp hc
    rw [hdrop, hrest] at hhead
    simpa using hhead
  · intro c hc
    exact getLast?_trimEnd hc

end Reflector.Text

namespace Reflector

open Text

/-- At this mark the reader answers offsets at which the body splits. -/
def DeclReader.AnswersBoundaries (reader : DeclReader) (body : List Char) (pos : Nat) : Prop :=
  IsBoundary body (reader.nameOffset body pos) ∧
    (∀ stop ∈ reader.fieldStop? body pos, IsBoundary body stop) ∧
    ∀ stop ∈ reader.methodStop? body pos, IsBoundary body stop

instance (reader : DeclReader) (body : List Char) (pos : Nat) :
    Decidable (reader.AnswersBoundaries body pos) :=
  inferInstanceAs (Decidable (_ ∧ _ ∧ _))

private theorem DeclReader.AnswersBoundaries.stop {reader : DeclReader} {body : List Char}
    {pos stop : Nat}
    {kind : MemberKind} (h : reader.AnswersBoundaries body pos)
    (hstop : kind.end? reader body pos = some stop) : IsBoundary body stop := by
  cases kind with
  | field => exact h.2.1 stop hstop
  | method => exact h.2.2 stop hstop

/-- The names of one kind that the reader declares at these marks, in order. A mark where it finds no end
has none, and neither has one where only blanks and delimiters stand up to the end. -/
inductive ReadsNames (reader : DeclReader) (body : List Char) (kind : MemberKind) :
    List Nat → List String → Prop
  | nil : ReadsNames reader body kind [] []
  | unread {pos marks names} : kind.end? reader body pos = none →
      ReadsNames reader body kind marks names → ReadsNames reader body kind (pos :: marks) names
  | blank {pos stop piece marks names} : kind.end? reader body pos = some stop →
      StandsBetween body (min (reader.nameOffset body pos) stop) stop piece →
      TrimsTo (fun c => isBlank c || kind.isDelimiter c) piece [] →
      ReadsNames reader body kind marks names → ReadsNames reader body kind (pos :: marks) names
  | named {pos stop piece name marks names} : kind.end? reader body pos = some stop →
      StandsBetween body (min (reader.nameOffset body pos) stop) stop piece → name ≠ "" →
      TrimsTo (fun c => isBlank c || kind.isDelimiter c) piece name.toList →
      ReadsNames reader body kind marks names →
      ReadsNames reader body kind (pos :: marks) (name :: names)

private theorem readsNames_marks {reader : DeclReader} {body : List Char} (kind : MemberKind)
    {marks : List Nat} (h : ∀ pos ∈ marks, reader.AnswersBoundaries body pos) :
    ReadsNames reader body kind marks
      (((marks.filterMap (markedName? reader body kind)).filter (·.name ≠ [])).map
        (String.ofList ·.name)) := by
  induction marks with
  | nil => exact .nil
  | cons pos marks ih =>
    obtain ⟨hpos, hmarks⟩ := List.forall_mem_cons.mp h
    have ih := ih hmarks
    cases hend : kind.end? reader body pos with
    | none =>
      rw [List.filterMap_cons, markedName?, hend]
      exact .unread hend ih
    | some stop =>
      have hstop := hpos.stop hend
      have hstart : IsBoundary body (min (reader.nameOffset body pos) stop) := by
        rw [Nat.min_def]
        split
        · exact hpos.1
        · exact hstop
      have hpiece := standsBetween_slice hstart hstop (Nat.min_le_right _ _)
      have htrim := trimsTo_trim (fun c => isBlank c || kind.isDelimiter c)
        (slice (min (reader.nameOffset body pos) stop) stop body)
      rw [List.filterMap_cons, markedName?, hend]
      simp only [Option.map_some]
      by_cases hname : declaredName kind.isDelimiter
          (slice (min (reader.nameOffset body pos) stop) stop body) = []
      · rw [List.filter_cons_of_neg (by simpa using hname)]
        rw [declaredName] at hname
        rw [hname] at htrim
        exact .blank hend hpiece htrim ih
      · have hne : String.ofList (declaredName kind.isDelimiter
            (slice (min (reader.nameOffset body pos) stop) stop body)) ≠ "" := by
          simpa using hname
        rw [List.filter_cons_of_pos (by simpa using hname), List.map_cons]
        exact .named hend hpiece hne (by rwa [String.toList_ofList]) ih

/-- No name read at a mark is empty, and none has a blank or a delimiter at one of its ends. -/
theorem ReadsNames.solid {reader : DeclReader} {body : List Char} {kind : MemberKind}
    {marks : List Nat} {names : List String} (h : ReadsNames reader body kind marks names) :
    ∀ name ∈ names, name ≠ "" ∧ ∀ c, name.toList.head? = some c ∨ name.toList.getLast? = some c →
      isBlank c = false ∧ kind.isDelimiter c = false := by
  induction h with
  | nil => simp
  | unread _ _ ih => exact ih
  | blank _ _ _ _ ih => exact ih
  | @named pos stop piece first marks names _ _ hne htrim _ ih =>
    refine List.forall_mem_cons.mpr ⟨⟨hne, ?_⟩, ih⟩
    intro c hc
    rw [← Bool.or_eq_false_iff]
    rcases hc with hc | hc
    · exact htrim.head c hc
    · exact htrim.last c hc

theorem nodup_eraseDups (names : List String) : names.eraseDups.Nodup := by
  induction hn : names.length using Nat.strongRecOn generalizing names with
  | ind n ih =>
    cases names with
    | nil => simp
    | cons name names =>
      rw [List.eraseDups_cons, List.nodup_cons]
      refine ⟨by simp [List.mem_eraseDups], ?_⟩
      apply ih _ _ _ rfl
      have := List.length_filter_le (fun b => !b == name) names
      rw [List.length_cons] at hn
      omega

/-- The record of a class holds what the configuration and the reader find in the class. -/
structure ClassBlock.IsExtracted (config : Config) (reader : DeclReader) (decl : ClassBlock)
    (record : ClassRecord) : Prop where
  name : record.name = decl.name
  isComponent : record.isComponent = true ↔
    ∃ marker ∈ config.componentMarkers, marker.toList <:+: decl.body
  mem_bases : ∀ base, base ∈ record.bases ↔ base ∈ namedBases config.implsMacro.toList decl.body ∨
    (record.isComponent = true ∧ base = config.componentBase)
  bases_increasing : record.bases.Pairwise fun a b => utf8Bytes a < utf8Bytes b
  fields_nodup : record.fields.Nodup
  methods_nodup : record.methods.Nodup
  commit : record.isComponent = true → record.methods.head? = some "commit"
  /-- One sweep over the text behind the header finds the marks at which the names are read. -/
  members : ∃ behind marks, ∃ names : MemberKind → List String, decl.body = decl.header ++ behind ∧
    (markPattern (config.reflAttributes.map String.toList)).IsSweep (byteLength decl.header) none
      behind marks ∧
    (∀ kind, ReadsNames reader decl.body kind (marks.map (·.start)) (names kind)) ∧
    (∀ kind, ∀ name ∈ names kind, name ≠ "" ∧
      ∀ c, name.toList.head? = some c ∨ name.toList.getLast? = some c →
        isBlank c = false ∧ kind.isDelimiter c = false) ∧
    record.fields = (names .field).eraseDups ∧
    record.methods =
      ((if record.isComponent then ["commit"] else []) ++ names .method).eraseDups

theorem record_isExtracted (config : Config) (reader : DeclReader) {decl : ClassBlock}
    (hheader : decl.header <+: decl.body)
    (hreader : ∀ pos ∈ decl.markOffsets (config.reflAttributes.map String.toList),
      reader.AnswersBoundaries decl.body pos) :
    decl.IsExtracted config reader (decl.record config reader) := by
  obtain ⟨behind, hbody⟩ := hheader
  have hmarks : decl.markOffsets (config.reflAttributes.map String.toList) =
      ((markPattern (config.reflAttributes.map String.toList)).spansFrom (byteLength decl.header)
        none behind).map (·.start) := by
    rw [ClassBlock.markOffsets, ← hbody, splitFromByte_byteLength]
  have hnames : ∀ kind, ReadsNames reader decl.body kind
      (decl.markOffsets (config.reflAttributes.map String.toList))
      (decl.memberNames (config.reflAttributes.map String.toList) reader kind) :=
    fun kind => readsNames_marks kind hreader
  refine ⟨rfl, ?_, ?_, ?_, nodup_eraseDups _, nodup_eraseDups _, ?_, ?_⟩
  · simp [ClassBlock.record, ClassBlock.isComponent]
  · intro base
    simp only [ClassBlock.record, mem_nameSet]
    split
    · rename_i hc
      simp [hc, or_comm]
    · rename_i hc
      simp [hc]
  · exact (pairwise_nameSet _).imp utf8Bytes_lt
  · intro hc
    simp only [ClassBlock.record] at hc ⊢
    rw [if_pos hc, List.eraseDups_cons, List.head?_cons]
  · refine ⟨behind, _, decl.memberNames (config.reflAttributes.map String.toList) reader,
      hbody.symm, Pattern.isSweep_spansFrom _ _ _ _, ?_, ?_, rfl, ?_⟩
    · intro kind
      rw [← hmarks]
      exact hnames kind
    · exact fun kind => (hnames kind).solid
    · by_cases hc : decl.isComponent config = true
      · simp [ClassBlock.record, hc]
      · simp [ClassBlock.record, hc]

/-- A component with two bases, a method, a field that is marked twice and a mark in its header. -/
def podClass : ClassBlock :=
  ⟨"Pod", "class [[refl]] Pod \x7b".toList,
    "class [[refl]] Pod \x7b AKR_IMPLS(Storage, Actor) [[refl]] int id = 1; ".toList ++
      "[[refl]] void run(); [[refl]] int id; \x7d".toList, 0⟩

theorem record_isExtracted_podClass :
    podClass.header <+: podClass.body ∧
      (∀ pos ∈ podClass.markOffsets ["refl".toList, "akari::refl".toList],
        tokenReader.AnswersBoundaries podClass.body pos) ∧
      podClass.IsExtracted {} tokenReader (podClass.record {} tokenReader) := by
  have hheader : podClass.header <+: podClass.body := by decide +kernel
  have hreader : ∀ pos ∈ podClass.markOffsets ["refl".toList, "akari::refl".toList],
      tokenReader.AnswersBoundaries podClass.body pos := by
    decide +kernel
  exact ⟨hheader, hreader, record_isExtracted {} tokenReader hheader hreader⟩

end Reflector
