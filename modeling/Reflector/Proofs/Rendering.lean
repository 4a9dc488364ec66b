import Mathlib.Data.List.Forall2
import Reflector.Proofs.EmittedLine
/-!
# What can be read off the generated source

The part that registers the classes tells the name, the bases, the fields and the methods of every
class, and the part that describes them to the compiler tells the name, the fields and the number of
the methods. Two registries are rendered alike exactly if they agree on these.
-/

namespace Reflector

open Emission Text

namespace ClassRecord

/-- No name in the record breaks a line, and the signs that stand behind the name of the class and
behind its bases are in none of these. -/
structure IsLegible (record : ClassRecord) : Prop where
  name : ∀ c ∈ record.name.toList, c ≠ '\n' ∧ c ≠ ',' ∧ c ≠ '>'
  bases : ∀ base ∈ record.bases, ∀ c ∈ base.toList, c ≠ '\n' ∧ c ≠ ',' ∧ c ≠ '>'
  fields : ∀ field ∈ record.fields, '\n' ∉ field.toList
  methods : ∀ method ∈ record.methods, '\n' ∉ method.toList

/-- The records agree on all that is registered of a class. -/
structure SameRegistration (a b : ClassRecord) : Prop where
  name : a.name = b.name
  bases : a.bases = b.bases
  fields : a.fields = b.fields
  methods : a.methods = b.methods

/-- The records agree on all that a static description says of a class. -/
structure SameStaticMeta (a b : ClassRecord) : Prop where
  name : a.name = b.name
  fields : a.fields = b.fields
  methodCount : a.methods.length = b.methods.length

variable {a b : ClassRecord}

private theorem IsLegible.lineFeed_not_mem_name (h : a.IsLegible) : '\n' ∉ a.name.toList :=
  fun hm => (h.name _ hm).1 rfl

private theorem IsLegible.lineFeed_not_mem_bases (h : a.IsLegible) :
    ∀ base ∈ a.bases, '\n' ∉ base.toList :=
  fun base hbase hm => (h.bases base hbase _ hm).1 rfl

end ClassRecord

/-- Rows of blocks are equal only if their blocks agree in pairs, where a block can be told from what
follows it. -/
private theorem forall₂_of_flatMap_append {α β : Type} {r : α → α → Prop} {block : α → List β}
    {as bs : List α} {tail : List β} (h : as.flatMap block ++ tail = bs.flatMap block ++ tail)
    (hblock : ∀ a ∈ as, ∀ b ∈ bs, ∀ more more', block a ++ more = block b ++ more' →
      r a b ∧ more = more')
    (htail : ∀ a more, block a ++ more ≠ tail) : List.Forall₂ r as bs := by
  induction as generalizing bs with
  | nil =>
    cases bs with
    | nil => exact .nil
    | cons b bs =>
      rw [List.flatMap_cons, List.append_assoc] at h
      exact absurd h.symm (htail b _)
  | cons a as ih =>
    cases bs with
    | nil =>
      rw [List.flatMap_cons, List.append_assoc] at h
      exact absurd h (htail a _)
    | cons b bs =>
      simp only [List.flatMap_cons, List.append_assoc] at h
      obtain ⟨hab, hmore⟩ := hblock a List.mem_cons_self b List.mem_cons_self _ _ h
      refine .cons hab (ih hmore fun a ha b hb => ?_)
      exact hblock a (List.mem_cons_of_mem _ ha) b (List.mem_cons_of_mem _ hb)

private theorem flatMap_eq_of_forall₂ {α β : Type} {r : α → α → Prop} {block : α → List β}
    {as bs : List α} (h : List.Forall₂ r as bs) (hblock : ∀ a b, r a b → block a = block b) :
    as.flatMap block = bs.flatMap block := by
  induction h with
  | nil => rfl
  | cons hab _ ih => rw [List.flatMap_cons, List.flatMap_cons, hblock _ _ hab, ih]

namespace Emission

variable {a b : ClassRecord}

private theorem toList_joinBases (bases : List String) :
    (String.join (bases.map ("," ++ ·))).toList = (bases.map String.toList).flatMap (',' :: ·) := by
  simp [String.toList_join, List.flatMap_map]

private theorem toList_classLine (record : ClassRecord) : (classLine record).toList =
    "  auto c = class_<".toList ++ ((record.name.toList ++
      (record.bases.map String.toList).flatMap (',' :: ·)) ++
        '>' :: ("(\"".toList ++ (record.name.toList ++ "\");".toList))) := by
  unfold classLine
  simp only [String.toList_append, toList_joinBases, List.append_assoc]
  rfl

private theorem classLine_inj (h : classLine a = classLine b) (ha : a.IsLegible) (hb : b.IsLegible) :
    a.name = b.name ∧ a.bases = b.bases := by
  have hstop : ∀ {record : ClassRecord}, record.IsLegible →
      '>' ∉ record.name.toList ++ (record.bases.map String.toList).flatMap (',' :: ·) := by
    intro record hr hm
    simp only [List.mem_append, List.mem_flatMap, List.mem_map, List.mem_cons] at hm
    rcases hm with hm | ⟨_, ⟨base, hbase, rfl⟩, hm | hm⟩
    · exact (hr.name _ hm).2.2 rfl
    · exact absurd hm (by decide)
    · exact (hr.bases base hbase _ hm).2.2 rfl
  have htext := congrArg String.toList h
  rw [toList_classLine, toList_classLine] at htext
  -- The first closing bracket ends the bases, and behind it the name stands alone.
  obtain ⟨hfront, hback⟩ :=
    first_unique (List.append_cancel_left htext) (hstop ha) (hstop hb)
  have hname := List.append_cancel_right (List.append_cancel_left hback)
  rw [hname] at hfront
  have hbases := flatMap_cons_inj (List.append_cancel_left hfront)
    (List.forall_mem_map.mpr fun base hbase hm => (ha.bases base hbase _ hm).2.1 rfl)
    (List.forall_mem_map.mpr fun base hbase hm => (hb.bases base hbase _ hm).2.1 rfl)
  exact ⟨String.toList_inj.mp hname,
    (List.map_inj_right fun _ _ => String.toList_inj.mp).mp hbases⟩

private theorem lineFeed_not_mem_registrationBlock (h : a.IsLegible) :
    ∀ line ∈ registrationBlock a, '\n' ∉ line.toList := by
  have hname := h.lineFeed_not_mem_name
  have hbases : '\n' ∉ (a.bases.map String.toList).flatMap (',' :: ·) := by
    simpa using h.lineFeed_not_mem_bases
  have hmethods : ∀ method ∈ registeredMethods a, '\n' ∉ method.toList := by
    rw [registeredMethods, List.forall_mem_append]
    exact ⟨h.methods, by decide⟩
  rw [registrationBlock_eq, List.forall_mem_cons, List.forall_mem_cons, List.forall_mem_append,
    List.forall_mem_append, List.forall_mem_map, List.forall_mem_map]
  refine ⟨by decide, ?_, ?_, ?_, by decide⟩
  · simp [toList_classLine, hname, hbases]
  · intro field hfield
    unfold propertyLine
    simp [hname, h.fields field hfield]
  · intro method hmethod
    unfold methodLine
    simp [hname, hmethods method hmethod]

private theorem registrationBlock_append_inj (ha : a.IsLegible) (hb : b.IsLegible)
    {more more' : List String}
    (h : registrationBlock a ++ more = registrationBlock b ++ more') :
    a.SameRegistration b ∧ more = more' := by
  rw [registrationBlock_eq, registrationBlock_eq] at h
  simp only [List.cons_append, List.append_assoc, List.cons.injEq, true_and, List.nil_append] at h
  obtain ⟨hclass, hmembers⟩ := h
  obtain ⟨hname, hbases⟩ := classLine_inj hclass ha hb
  rw [hname] at hmembers
  -- The lines of the fields end where those of the methods begin, and these end with the block.
  have hproperty : ∀ record : ClassRecord, ∀ line ∈ record.fields.map (propertyLine b.name),
      (opening line == "  c.proper".toList) = true := by
    intro record
    simp
  have hmethod : ∀ record : ClassRecord, ∀ line ∈ (registeredMethods record).map (methodLine b.name),
      (opening line == "  c.method".toList) = true := by
    intro record
    simp
  have hstop : ∀ record : ClassRecord, ∀ rest,
      ∀ line ∈ ((registeredMethods record).map (methodLine b.name) ++ rest).head?,
        (opening line == "  c.proper".toList) = false := by
    intro record rest
    cases hm : record.methods <;> simp [registeredMethods, hm]
  obtain ⟨hfields, hrest⟩ := append_inj_of_stop hmembers (hproperty a) (hproperty b)
    (hstop a _) (hstop b _)
  obtain ⟨hmethods, hmore⟩ := append_inj_of_stop hrest (hmethod a) (hmethod b) (by simp [opening])
    (by simp [opening])
  have hlisted := (List.map_inj_right fun _ _ h => methodLine_injective _ h).mp hmethods
  refine ⟨⟨hname, hbases, ?_, List.append_cancel_right hlisted⟩, (List.cons.inj hmore).2⟩
  exact (List.map_inj_right fun _ _ h => propertyLine_injective _ h).mp hfields

private theorem registrationBlock_congr (h : a.SameRegistration b) :
    registrationBlock a = registrationBlock b := by
  obtain ⟨hname, hbases, hfields, hmethods⟩ := h
  unfold registrationBlock
  rw [hname, hbases, hfields, hmethods]

private theorem lineFeed_not_mem_visitBlock {qualifier : String} (hq : '\n' ∉ qualifier.toList)
    (h : a.IsLegible) : ∀ line ∈ visitBlock qualifier a, '\n' ∉ line.toList := by
  unfold visitBlock
  simp only [List.forall_mem_append, List.forall_mem_map, List.forall_mem_singleton]
  refine ⟨⟨by simp [h.lineFeed_not_mem_name, hq], ?_⟩, by decide⟩
  intro field hfield
  unfold visitLine
  simp [h.fields field hfield]

private theorem lineFeed_not_mem_staticMetaBlock (h : a.IsLegible) :
    ∀ line ∈ staticMetaBlock a, '\n' ∉ line.toList := by
  have hdigits : ∀ n : Nat, '\n' ∉ Nat.toDigits 10 n := by
    intro n hm
    have hdigit : '\n'.isDigit = true :=
      Nat.isDigit_of_mem_toDigits (by decide) (Nat.le_refl 10) hm
    exact absurd hdigit (by decide)
  unfold staticMetaBlock
  simp only [List.forall_mem_append, List.forall_mem_map]
  refine ⟨⟨⟨⟨⟨?_, ?_⟩, ?_⟩, ?_⟩, ?_⟩, by decide⟩
  · simp [h.lineFeed_not_mem_name]
  · intro field hfield
    unfold attributeLine
    simp [h.fields field hfield]
  · simp [hdigits]
  · exact lineFeed_not_mem_visitBlock (by decide) h
  · exact lineFeed_not_mem_visitBlock (by decide) h

private theorem staticMetaBlock_append_inj {more more' : List String}
    (h : staticMetaBlock a ++ more = staticMetaBlock b ++ more') :
    a.SameStaticMeta b ∧ more = more' := by
  unfold staticMetaBlock at h
  simp only [List.append_assoc, List.cons_append, List.nil_append, List.cons.injEq] at h
  obtain ⟨hhead, htail⟩ := h
  have hname : a.name = b.name := by
    have htext := congrArg String.toList hhead
    simp only [String.toList_append] at htext
    exact String.toList_inj.mp (List.append_cancel_left (List.append_cancel_right htext))
  -- The lines of the fields end where the number of the fields is given.
  have hattribute : ∀ record : ClassRecord, ∀ line ∈ record.fields.map attributeLine,
      (opening line == "  static c".toList) = true := by
    intro record
    simp
  obtain ⟨hfields, hrest⟩ := append_inj_of_stop htail (hattribute a) (hattribute b)
    (by simp [opening]) (by simp [opening])
  have hfields := (List.map_inj_right fun _ _ h => attributeLine_injective h).mp hfields
  simp only [List.cons.injEq] at hrest
  obtain ⟨-, hcount, hvisits⟩ := hrest
  have hmethods : a.methods.length = b.methods.length := by
    have htext := congrArg String.toList hcount
    simp only [String.toList_append] at htext
    have hdigits := List.append_cancel_left (List.append_cancel_right htext)
    have hnumber := congrArg (Nat.ofDigitChars 10 · 0) hdigits
    simpa [Nat.toString_eq_ofList_toDigits] using hnumber
  have hvisit : ∀ qualifier, visitBlock qualifier a = visitBlock qualifier b := by
    intro qualifier
    unfold visitBlock
    rw [hname, hfields]
  rw [hvisit, hvisit] at hvisits
  have hmore := List.append_cancel_left (List.append_cancel_left hvisits)
  exact ⟨⟨hname, hfields, hmethods⟩, (List.cons.inj hmore).2⟩

private theorem staticMetaBlock_congr (h : a.SameStaticMeta b) :
    staticMetaBlock a = staticMetaBlock b := by
  obtain ⟨hname, hfields, hmethods⟩ := h
  unfold staticMetaBlock visitBlock
  rw [hname, hfields, hmethods]

variable {r r' : Registry}

private theorem registration_eq_iff (hr : ∀ record ∈ r.classes, record.IsLegible)
    (hr' : ∀ record ∈ r'.classes, record.IsLegible) :
    registration r = registration r' ↔
      List.Forall₂ ClassRecord.SameRegistration r.classes r'.classes := by
  have hlines : ∀ {r : Registry}, (∀ record ∈ r.classes, record.IsLegible) →
      ∀ line ∈ registrationLines r, '\n' ∉ line.toList := by
    intro r hr
    rw [registrationLines, List.forall_mem_append, List.forall_mem_append, List.forall_mem_flatMap]
    refine ⟨⟨by decide, ?_⟩, by decide⟩
    exact fun record hrecord => lineFeed_not_mem_registrationBlock (hr record hrecord)
  constructor
  · intro h
    have h := ofLines_inj h (hlines hr) (hlines hr')
    rw [registrationLines, registrationLines, List.append_assoc, List.append_assoc] at h
    refine forall₂_of_flatMap_append (List.append_cancel_left h) ?_ ?_
    · intro a ha b hb more more' hab
      exact registrationBlock_append_inj (hr a ha) (hr' b hb) hab
    · intro a more ha
      rw [registrationBlock_eq] at ha
      exact absurd (List.cons.inj ha).1 (by decide)
  · intro h
    rw [registration, registration, registrationLines, registrationLines,
      flatMap_eq_of_forall₂ h fun _ _ => registrationBlock_congr]

private theorem staticMeta_eq_iff (hr : ∀ record ∈ r.classes, record.IsLegible)
    (hr' : ∀ record ∈ r'.classes, record.IsLegible) :
    staticMeta r = staticMeta r' ↔
      List.Forall₂ ClassRecord.SameStaticMeta r.classes r'.classes := by
  have hlines : ∀ {r : Registry}, (∀ record ∈ r.classes, record.IsLegible) →
      ∀ line ∈ r.classes.flatMap staticMetaBlock, '\n' ∉ line.toList := by
    intro r hr
    rw [List.forall_mem_flatMap]
    exact fun record hrecord => lineFeed_not_mem_staticMetaBlock (hr record hrecord)
  constructor
  · intro h
    have h := ofLines_inj h (hlines hr) (hlines hr')
    refine forall₂_of_flatMap_append (congrArg (· ++ []) h) ?_ ?_
    · intro a _ b _ more more' hab
      exact staticMetaBlock_append_inj hab
    · intro a more ha
      simp [staticMetaBlock] at ha
  · intro h
    rw [staticMeta, staticMeta, flatMap_eq_of_forall₂ h fun _ _ => staticMetaBlock_congr]

/-- The registration of two registries is the same exactly if they list the same classes in the same
order, with equal names, bases, fields and methods; and their static description is, exactly if the
names, the fields and the numbers of the methods are equal. -/
theorem emission_eq_iff (hr : ∀ record ∈ r.classes, record.IsLegible)
    (hr' : ∀ record ∈ r'.classes, record.IsLegible) :
    (registration r = registration r' ↔
        List.Forall₂ ClassRecord.SameRegistration r.classes r'.classes) ∧
      (staticMeta r = staticMeta r' ↔
        List.Forall₂ ClassRecord.SameStaticMeta r.classes r'.classes) :=
  ⟨registration_eq_iff hr hr', staticMeta_eq_iff hr hr'⟩

def savedClass : ClassRecord :=
  ⟨"ns::Mesh", ["id", "size"], ["run", "save"], ["Actor", "Storage"], false⟩

def unsavedClass : ClassRecord :=
  { savedClass with methods := ["run"] }

theorem emission_ne_of_savedClass :
    (∀ record ∈ (Registry.ofList [savedClass]).classes, record.IsLegible) ∧
      (∀ record ∈ (Registry.ofList [unsavedClass]).classes, record.IsLegible) ∧
      registration (Registry.ofList [savedClass]) ≠ registration (Registry.ofList [unsavedClass]) ∧
      staticMeta (Registry.ofList [savedClass]) ≠ staticMeta (Registry.ofList [unsavedClass]) := by
  have hlegible : savedClass.IsLegible :=
    ⟨by simp [savedClass], by simp [savedClass], by decide, by decide⟩
  have hsaved : ∀ record ∈ (Registry.ofList [savedClass]).classes, record.IsLegible := by
    change ∀ record ∈ [savedClass], record.IsLegible
    rw [List.forall_mem_singleton]
    exact hlegible
  have hunsaved : ∀ record ∈ (Registry.ofList [unsavedClass]).classes, record.IsLegible := by
    change ∀ record ∈ [unsavedClass], record.IsLegible
    rw [List.forall_mem_singleton]
    exact ⟨hlegible.name, hlegible.bases, hlegible.fields, by decide⟩
  obtain ⟨hregistration, hstatic⟩ := emission_eq_iff hsaved hunsaved
  refine ⟨hsaved, hunsaved, fun h => ?_, fun h => ?_⟩
  · obtain ⟨hsame, -⟩ := List.forall₂_cons.mp (hregistration.mp h)
    exact absurd hsame.methods (by decide)
  · obtain ⟨hsame, -⟩ := List.forall₂_cons.mp (hstatic.mp h)
    exact absurd hsame.methodCount (by decide)

end Emission

end Reflector
