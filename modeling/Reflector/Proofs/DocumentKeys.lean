import Mathlib.Data.List.Nodup
import Reflector.Proofs.EncodingOrder
import Reflector.Toml.Document
/-!
# The keys of a document

Whatever is added to a table is put under a key that it has already or under a new one, so that no
key ever stands in it twice. The order in which the keys of a document are answered is then strict,
and a lookup finds the one entry of its key.
-/

namespace Reflector.Toml

open Text

variable {α : Type}

def keys (entries : List (String × α)) : List String :=
  entries.map (·.1)

/-- The keys come in the order of their bytes, each once. -/
def KeysAscend (entries : List (String × α)) : Prop :=
  (keys entries).Pairwise fun a b => utf8Bytes a < utf8Bytes b

theorem KeysAscend.nodup {entries : List (String × α)} (h : KeysAscend entries) :
    (keys entries).Nodup := by
  apply List.Pairwise.imp ?_ h
  intro a b hlt heq
  rw [heq] at hlt
  exact List.lt_irrefl _ hlt

theorem not_mem_keys_of_lookup {entries : List (String × α)} {key : String}
    (h : entries.lookup key = none) : key ∉ keys entries := by
  intro hkey
  obtain ⟨entry, hentry, rfl⟩ := List.mem_map.mp hkey
  have hne := List.lookup_eq_none_iff.mp h entry hentry
  simp at hne

theorem lookup_eq_some_iff {entries : List (String × α)} (h : (keys entries).Nodup) {key : String}
    {value : α} : entries.lookup key = some value ↔ (key, value) ∈ entries := by
  rw [List.lookup_eq_some_iff]
  constructor
  · rintro ⟨front, back, rfl, -⟩
    simp
  · intro hmem
    obtain ⟨front, back, rfl⟩ := List.append_of_mem hmem
    refine ⟨front, back, rfl, fun entry hentry => ?_⟩
    rw [keys, List.map_append, List.nodup_append] at h
    have hne := h.2.2 entry.1 (List.mem_map_of_mem hentry) key (by simp)
    simpa using Ne.symm hne

namespace Entries

private theorem keys_put (key : String) (draft : Draft) (entries : Entries) :
    keys (put key draft entries) =
      if key ∈ keys entries then keys entries else keys entries ++ [key] := by
  induction entries with
  | nil => rfl
  | cons entry entries ih =>
    obtain ⟨k, d⟩ := entry
    by_cases hk : k = key
    · subst hk
      simp [put, keys]
    · have hput : keys (put key draft ((k, d) :: entries)) = k :: keys (put key draft entries) := by
        rw [put, if_neg hk]
        rfl
      have hmem : key ∈ k :: keys entries ↔ key ∈ keys entries := by simp [Ne.symm hk]
      rw [hput, ih, show keys ((k, d) :: entries) = k :: keys entries from rfl, if_congr hmem rfl rfl]
      split <;> rfl

private theorem nodup_put {entries : Entries} (h : (keys entries).Nodup) (key : String)
    (draft : Draft) :
    (keys (put key draft entries)).Nodup := by
  rw [keys_put]
  split
  · exact h
  · rename_i hkey
    exact List.concat_eq_append ▸ h.concat hkey

/-- A change of a table gives no key twice if no key was there twice before. -/
def KeepsNodup (change : Entries → Option Entries) : Prop :=
  ∀ entries changed, change entries = some changed → (keys entries).Nodup → (keys changed).Nodup

private theorem keepsNodup_updateAt {made : Origin} {change : Origin → Entries → Option Entries}
    (hchange : ∀ origin, KeepsNodup (change origin)) (path : List String) (origin : Origin) :
    KeepsNodup (updateAt made change path origin) := by
  intro entries changed h hkeys
  cases path with
  | nil => exact hchange origin entries changed h hkeys
  | cons key path =>
    rw [updateAt] at h
    split at h
    · obtain ⟨inner, -, hput⟩ := Option.bind_eq_some_iff.mp h
      obtain rfl := Option.some.inj hput
      exact nodup_put hkeys key _
    · contradiction
    · split at h
      · contradiction
      · obtain ⟨inner, -, hput⟩ := Option.bind_eq_some_iff.mp h
        obtain rfl := Option.some.inj hput
        exact nodup_put hkeys key _
    · obtain ⟨last, -, hlast⟩ := Option.bind_eq_some_iff.mp h
      obtain ⟨inner, -, hput⟩ := Option.bind_eq_some_iff.mp hlast
      obtain rfl := Option.some.inj hput
      exact nodup_put hkeys key _

private theorem keepsNodup_addKeyValue (kv : KeyValue) : KeepsNodup (addKeyValue · kv) := by
  apply keepsNodup_updateAt
  intro origin entries changed h hkeys
  dsimp only at h
  split at h
  · contradiction
  · split at h
    · contradiction
    · rename_i hlookup
      obtain rfl := Option.some.inj h
      have hkey : kv.key ∉ keys entries :=
        not_mem_keys_of_lookup (Option.not_isSome_iff_eq_none.mp hlookup)
      simpa [keys] using hkeys.concat hkey

private theorem keepsNodup_addSection (part : Section) : KeepsNodup (addSection · part) := by
  apply keepsNodup_updateAt
  intro origin entries changed h hkeys
  dsimp only at h
  split at h
  · obtain ⟨inner, -, hput⟩ := Option.bind_eq_some_iff.mp h
    obtain rfl := Option.some.inj hput
    exact nodup_put hkeys part.key _
  · obtain ⟨inner, -, hput⟩ := Option.bind_eq_some_iff.mp h
    obtain rfl := Option.some.inj hput
    have hremove : (keys (remove part.key entries)).Nodup :=
      hkeys.sublist (List.filter_sublist.map _)
    exact nodup_put hremove part.key _
  · obtain ⟨inner, -, hput⟩ := Option.bind_eq_some_iff.mp h
    obtain rfl := Option.some.inj hput
    exact nodup_put hkeys part.key _
  · obtain ⟨inner, -, hput⟩ := Option.bind_eq_some_iff.mp h
    obtain rfl := Option.some.inj hput
    exact nodup_put hkeys part.key _
  · contradiction

private theorem keepsNodup_foldlM {β : Type} {change : Entries → β → Option Entries}
    (h : ∀ part, KeepsNodup (change · part)) (parts : List β) :
    KeepsNodup (parts.foldlM change ·) := by
  induction parts with
  | nil =>
    intro entries changed hchanged hkeys
    obtain rfl := Option.some.inj hchanged
    exact hkeys
  | cons part parts ih =>
    intro entries changed hchanged hkeys
    obtain ⟨between, hpart, hparts⟩ := Option.bind_eq_some_iff.mp hchanged
    exact ih between changed hparts (h part entries between hpart hkeys)

end Entries

private theorem keys_finishEntries (entries : Entries) :
    keys (finishEntries entries) = keys entries := by
  induction entries with
  | nil => rfl
  | cons entry entries ih => simpa [finishEntries, keys] using ih

private theorem keys_resolveEntries? {entries resolved : List (String × Value)}
    (h : resolveEntries? entries = some resolved) : keys resolved = keys entries := by
  induction entries generalizing resolved with
  | nil =>
    obtain rfl := Option.some.inj h
    rfl
  | cons entry entries ih =>
    obtain ⟨value, -, hrest⟩ := Option.bind_eq_some_iff.mp h
    obtain ⟨rest, hentries, hcons⟩ := Option.bind_eq_some_iff.mp hrest
    obtain rfl := Option.some.inj hcons
    rw [keys, List.map_cons, keys, List.map_cons]
    exact congrArg _ (ih hentries)

private theorem nodup_keys_writtenEntries? {text : String} {entries : List (String × Value)}
    (h : writtenEntries? text = some entries) : (keys entries).Nodup := by
  obtain ⟨statements, -, h⟩ := Option.bind_eq_some_iff.mp h
  obtain ⟨preamble, hpreamble, h⟩ := Option.bind_eq_some_iff.mp h
  obtain ⟨drafts, hdrafts, hresolved⟩ := Option.bind_eq_some_iff.mp h
  rw [keys_resolveEntries? hresolved, keys_finishEntries]
  have hfirst := Entries.keepsNodup_foldlM Entries.keepsNodup_addKeyValue _ _ _ hpreamble .nil
  exact Entries.keepsNodup_foldlM Entries.keepsNodup_addSection _ _ _ hdrafts hfirst

private theorem keysAscend_sortEntries {entries : List (String × Value)} (h : (keys entries).Nodup) :
    KeysAscend (sortEntries entries) := by
  have hkeys : (keys (sortEntries entries)).Nodup :=
    ((List.mergeSort_perm entries _).map _).nodup_iff.mpr h
  have hsorted : (keys (sortEntries entries)).Pairwise (· ≤ ·) := by
    have hle : (sortEntries entries).Pairwise fun a b => decide (a.1 ≤ b.1) = true :=
      List.pairwise_mergeSort (fun a b c => by simpa using String.le_trans)
        (fun a b => by simpa using String.le_total a.1 b.1) entries
    rw [keys, List.pairwise_map]
    exact hle.imp of_decide_eq_true
  refine (hsorted.and hkeys).imp fun ⟨hle, hne⟩ => utf8Bytes_lt ?_
  exact Std.lt_of_le_of_ne hle hne

theorem keysAscend_document? {text : String} {entries : List (String × Value)}
    (h : document? text = some entries) : KeysAscend entries := by
  obtain ⟨written, hwritten, rfl⟩ := Option.map_eq_some_iff.mp h
  exact keysAscend_sortEntries (nodup_keys_writtenEntries? hwritten)

end Reflector.Toml
