import Reflector.Program
import Reflector.Proofs.DocumentKeys
import Reflector.Proofs.EditDistance
/-!
# What a configuration is read from

Every setting comes from the entry of its own key alone. A key of the document is reported if it is
not known, or if it is known and its value is unfit, and nothing else is reported.
-/

namespace Reflector

open Text Toml

namespace Toml.Value

/-- The value is an array of these strings, at least one. -/
def HoldsStrings (value : Value) (texts : List String) : Prop :=
  texts ≠ [] ∧ value = .array (texts.map .string)

def HoldsString (value : Value) (text : String) : Prop :=
  value = .string text

private theorem string?_eq_some_iff {value : Value} {text : String} :
    value.string? = some text ↔ value.HoldsString text := by
  cases value <;> simp [string?, HoldsString]

private theorem mapM_string?_eq_some_iff {items : List Value} {texts : List String} :
    items.mapM string? = some texts ↔ items = texts.map .string := by
  induction items generalizing texts with
  | nil => cases texts <;> simp
  | cons item items ih =>
    rw [List.mapM_cons]
    cases texts with
    | nil => simp [Option.bind_eq_some_iff]
    | cons text texts => simp [Option.bind_eq_some_iff, string?_eq_some_iff, HoldsString, ih]

private theorem strings?_eq_some_iff {value : Value} {texts : List String} :
    (value.strings?.filter fun texts => !texts.isEmpty) = some texts ↔ value.HoldsStrings texts := by
  cases value <;> simp [strings?, HoldsStrings, mapM_string?_eq_some_iff, and_comm]

end Toml.Value

/-- What the entry of a key gives for its setting, and what is reported about it. -/
inductive Reads {α : Type} (Gives : Value → α → Prop) (report : String → Event)
    (entries : List (String × Value)) (key : String) (before : α) : List Event → α → Prop
  | given {value : Value} {setting : α} : (key, value) ∈ entries → Gives value setting →
      Reads Gives report entries key before [] setting
  | unfit {value : Value} : (key, value) ∈ entries → (∀ setting, ¬ Gives value setting) →
      Reads Gives report entries key before [report key] before
  | absent : key ∉ keys entries → Reads Gives report entries key before [] before

private theorem reads_setting {α : Type} {fit? : Value → Option α} {Gives : Value → α → Prop}
    (hfit : ∀ value setting, fit? value = some setting ↔ Gives value setting)
    (report : String → Event) {entries : List (String × Value)} (hkeys : (keys entries).Nodup)
    (key : String) (before : α) :
    Reads Gives report entries key before (setting fit? report entries key before).1
      (setting fit? report entries key before).2 := by
  unfold setting
  cases hentry : entries.lookup key with
  | none => exact .absent (not_mem_keys_of_lookup hentry)
  | some value =>
    have hmem := (lookup_eq_some_iff hkeys).mp hentry
    dsimp only
    cases hvalue : fit? value with
    | none =>
      refine .unfit hmem fun setting hgives => ?_
      rw [(hfit value setting).mpr hgives] at hvalue
      contradiction
    | some setting => exact .given hmem ((hfit value setting).mp hvalue)

/-- The known key that is meant by another one, if any is near: the first of the nearest. -/
def Suggests (key : String) : Option String → Prop
  | none => ∀ known ∈ Config.keys, ∀ n ≤ 3, ¬ Edits n (utf8Bytes key) (utf8Bytes known)
  | some known => ∃ front back distance, Config.keys = front ++ known :: back ∧ distance ≤ 3 ∧
      Edits distance (utf8Bytes key) (utf8Bytes known) ∧
      (∀ other ∈ front, ∀ n, Edits n (utf8Bytes key) (utf8Bytes other) → distance < n) ∧
      ∀ other ∈ known :: back, ∀ n, Edits n (utf8Bytes key) (utf8Bytes other) → distance ≤ n

private theorem exists_nearest (key : String) :
    ∃ known ∈ Config.keys, ∀ other ∈ Config.keys, keyDistance key known ≤ keyDistance key other := by
  have hne : Config.keys.map (keyDistance key) ≠ [] := List.cons_ne_nil _ _
  obtain ⟨least, hleast⟩ := Option.isSome_iff_exists.mp (List.isSome_min?_of_ne_nil hne)
  obtain ⟨hmem, hle⟩ := List.min?_eq_some_iff.mp hleast
  obtain ⟨known, hknown, rfl⟩ := List.mem_map.mp hmem
  exact ⟨known, hknown, fun other hother => hle _ (List.mem_map_of_mem hother)⟩

private theorem suggests_suggestion? (key : String) : Suggests key (suggestion? key) := by
  have hle : ∀ (other : String) (n : Nat), Edits n (utf8Bytes key) (utf8Bytes other) →
      keyDistance key other ≤ n := fun _ _ hedits => hedits.editDistance_le
  obtain ⟨near, hnear, hnearest⟩ := exists_nearest key
  obtain ⟨known, hfind⟩ : ∃ known, (Config.keys.find? fun known =>
      Config.keys.all fun other => keyDistance key known ≤ keyDistance key other) = some known := by
    rw [← Option.isSome_iff_exists, List.find?_isSome]
    exact ⟨near, hnear, by simpa using hnearest⟩
  obtain ⟨hknown, front, back, hkeys, hfront⟩ := List.find?_eq_some_iff_append.mp hfind
  have hmin : ∀ other ∈ Config.keys, keyDistance key known ≤ keyDistance key other := by
    simpa using hknown
  rw [suggestion?, hfind]
  by_cases hdistance : keyDistance key known ≤ 3
  · rw [Option.filter_some, if_pos (by simpa using hdistance)]
    have hedits : Edits (keyDistance key known) (utf8Bytes key) (utf8Bytes known) :=
      edits_editDistance _ _
    refine ⟨front, back, keyDistance key known, hkeys, hdistance, hedits, ?_, ?_⟩
    · intro other hother n hedits
      obtain ⟨nearer, hmem, hnearer⟩ : ∃ nearer ∈ Config.keys,
          keyDistance key nearer < keyDistance key other := by
        simpa using hfront other hother
      have hlt := Nat.lt_of_le_of_lt (hmin nearer hmem) hnearer
      exact Nat.lt_of_lt_of_le hlt (hle other n hedits)
    · intro other hother n hedits
      have hnear := hmin other (hkeys ▸ List.mem_append_right front hother)
      exact Nat.le_trans hnear (hle other n hedits)
  · rw [Option.filter_some, if_neg (by simpa using hdistance)]
    intro other hother n hn hedits
    have hnear := hmin other hother
    exact hdistance (Nat.le_trans (Nat.le_trans hnear (hle other n hedits)) hn)

/-- What the entries of a document give. The unknown keys are reported first, in the order of the
entries, then the settings that are unfit. -/
inductive ReadsConfig (entries : List (String × Value)) : List Event → Config → Prop
  | intro {suggest : String → Option String} {e₁ e₂ e₃ e₄ e₅ e₆ : List Event} {config : Config} :
      (∀ key, Suggests key (suggest key)) →
      Reads Value.HoldsStrings .stringsExpected entries "refl_attributes" ["refl", "akari::refl"] e₁
        config.reflAttributes →
      Reads Value.HoldsStrings .stringsExpected entries "component_markers"
        ["AKR_DECL_COMP", "AKR_IMPLS"] e₂ config.componentMarkers →
      Reads Value.HoldsStrings .stringsExpected entries "class_keywords" ["class"] e₃
        config.classKeywords →
      Reads Value.HoldsString .stringExpected entries "impls_macro" "AKR_IMPLS" e₄
        config.implsMacro →
      Reads Value.HoldsString .stringExpected entries "component_base" "Component" e₅
        config.componentBase →
      Reads Value.HoldsString .stringExpected entries "strip_keyword" "final" e₆
        config.stripKeyword →
      ReadsConfig entries
        (((keys entries).filter (· ∉ Config.keys)).map (fun key => .unknownKey key (suggest key)) ++
          e₁ ++ e₂ ++ e₃ ++ e₄ ++ e₅ ++ e₆) config

private theorem readsConfig_ofEntries {entries : List (String × Value)}
    (hkeys : (keys entries).Nodup) :
    ReadsConfig entries (Config.ofEntries entries).1 (Config.ofEntries entries).2 := by
  have hunknown : unknownKeys entries = ((keys entries).filter (· ∉ Config.keys)).map
      fun key => .unknownKey key (suggestion? key) := by
    simp [unknownKeys, keys]
  have hstrings (key : String) (before : List String) :
      Reads Value.HoldsStrings .stringsExpected entries key before
        (stringsSetting entries key before).1 (stringsSetting entries key before).2 :=
    reads_setting (fun _ _ => Value.strings?_eq_some_iff) .stringsExpected hkeys key before
  have hstring (key before : String) :
      Reads Value.HoldsString .stringExpected entries key before
        (stringSetting entries key before).1 (stringSetting entries key before).2 :=
    reads_setting (fun _ _ => Value.string?_eq_some_iff) .stringExpected hkeys key before
  rw [Config.ofEntries, hunknown]
  exact .intro suggests_suggestion? (hstrings _ _) (hstrings _ _) (hstrings _ _) (hstring _ _)
    (hstring _ _) (hstring _ _)

private theorem Reads.level {α : Type} {Gives : Value → α → Prop} {report : String → Event}
    {entries : List (String × Value)} {key : String} {before setting : α} {events : List Event}
    (h : Reads Gives report entries key before events setting)
    (hreport : (report key).level = .warn) : ∀ event ∈ events, event.level = .warn := by
  cases h with
  | given => simp
  | unfit => simpa using hreport
  | absent => simp

private theorem ReadsConfig.level {entries : List (String × Value)} {events : List Event}
    {config : Config}
    (h : ReadsConfig entries events config) : ∀ event ∈ events, event.level = .warn := by
  cases h with
  | intro _ h₁ h₂ h₃ h₄ h₅ h₆ =>
    simp only [List.forall_mem_append]
    refine ⟨⟨⟨⟨⟨⟨?_, h₁.level rfl⟩, h₂.level rfl⟩, h₃.level rfl⟩, h₄.level rfl⟩, h₅.level rfl⟩,
      h₆.level rfl⟩
    intro event hevent
    obtain ⟨key, -, rfl⟩ := List.mem_map.mp hevent
    rfl

/-- The law of a reader of documents. -/
def OrdersKeys (document? : DocumentReader) : Prop :=
  ∀ text entries, document? text = some entries → KeysAscend entries

/-- A document is always read. Each setting depends on the entry of its own key alone, and the warnings are
those about the unknown keys, in the order of their bytes, then those about unfit settings. -/
theorem readConfigWith_document {document? : DocumentReader} (hdocument : OrdersKeys document?)
    {text : String} {entries : List (String × Value)} (h : document? text = some entries)
    (path : String) :
    ((keys entries).filter (· ∉ Config.keys)).Pairwise (fun a b => utf8Bytes a < utf8Bytes b) ∧
      ∃ events config, readConfigWith document? path text = (events, .ok config) ∧
        ReadsConfig entries events config ∧ ∀ event ∈ events, event.level = .warn := by
  have hkeys := hdocument text entries h
  have hreads := readsConfig_ofEntries hkeys.nodup
  refine ⟨hkeys.filter _, _, _, ?_, hreads, hreads.level⟩
  rw [readConfigWith, h]

/-- One key is misspelled, one has a number in its list and one is as it should be. -/
def misspelledKeysText : String :=
  "class_keyword = [\"struct\"]\nrefl_attributes = [\"refl\", 1]\nstrip_keyword = \"\"\n"

def misspelledEntries : List (String × Value) :=
  [("class_keyword", .array [.string "struct"]),
    ("refl_attributes", .array [.string "refl", .integer 1]), ("strip_keyword", .string "")]

theorem readConfigWith_misspelledKeys :
    OrdersKeys Readers.command.document? ∧
      Readers.command.document? misspelledKeysText = some misspelledEntries ∧
      ReadsConfig misspelledEntries
        [.unknownKey "class_keyword" (some "class_keywords"), .stringsExpected "refl_attributes"]
        { reflAttributes := ["refl", "akari::refl"], componentMarkers := ["AKR_DECL_COMP", "AKR_IMPLS"],
          implsMacro := "AKR_IMPLS", componentBase := "Component", classKeywords := ["class"],
          stripKeyword := "" } := by
  have hordered : OrdersKeys Readers.command.document? := fun _ _ => keysAscend_document?
  have hwritten : writtenEntries? misspelledKeysText = some misspelledEntries := by decide +kernel
  have hsorted : sortEntries misspelledEntries = misspelledEntries :=
    List.mergeSort_of_pairwise (by decide)
  have hentries : Readers.command.document? misspelledKeysText = some misspelledEntries := by
    change (writtenEntries? misspelledKeysText).map sortEntries = _
    rw [hwritten, Option.map_some, hsorted]
  obtain ⟨-, events, config, hread, hreads, -⟩ :=
    readConfigWith_document hordered hentries ".reflgen.toml"
  have hgiven : Config.ofEntries misspelledEntries =
      ([.unknownKey "class_keyword" (some "class_keywords"), .stringsExpected "refl_attributes"],
        { stripKeyword := "" }) := by decide +kernel
  rw [readConfigWith, hentries] at hread
  simp only [hgiven] at hread
  obtain ⟨rfl, hconfig⟩ := Prod.mk.inj hread
  obtain rfl := Except.ok.inj hconfig
  exact ⟨hordered, hentries, hreads⟩

end Reflector
