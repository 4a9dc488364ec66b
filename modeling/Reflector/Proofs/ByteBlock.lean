import Reflector.Bytes.Block
import Reflector.Proofs.Block
import Reflector.Proofs.ByteLiteral

namespace Reflector.Bytes

open Text Source

private theorem closeBrace?_of_at? {bytes : List UInt8} {nesting : Nesting} {i : Nat} {c : Char}
    (h : at? bytes i = some c) :
    closeBrace? bytes nesting i =
      if (c = '"' ∨ c = '\'') ∧ opensLiteral bytes i = true then
        closeBrace? bytes nesting (literalEnd c bytes (i + 1))
      else if (nesting.next c).isClosed then some (i + 1)
      else closeBrace? bytes (nesting.next c) (i + 1) := by
  rw [closeBrace?.eq_def]
  split <;> simp_all

private theorem closeBrace?_of_isWide {bytes : List UInt8} {nesting : Nesting}
    (hopen : nesting.isClosed = false) {i : Nat} {c : Char} (h : at? bytes i = some c)
    (hc : IsWide c) : closeBrace? bytes nesting i = closeBrace? bytes nesting (i + 1) := by
  have hnext : nesting.next c = nesting :=
    next_of_not_brace (hc.ne (by decide)) (hc.ne (by decide))
  rw [closeBrace?_of_at? h, if_neg fun hquote => hc.not_quote hquote.1, hnext, hopen,
    if_neg Bool.false_ne_true]

private theorem closeBrace?_eq_closeBlock {cs before rest : List Char} {nesting : Nesting}
    (hcs : cs = before ++ rest) (hopen : nesting.isClosed = false) :
    closeBrace? (encode cs) nesting (byteLength before) =
      (closeBlock nesting (Lead.none.after before) rest).map fun (text, _) =>
        byteLength before + byteLength text := by
  -- The lead carries what the walk back over the bytes would find.
  generalize hlead : Lead.none.after before = lead
  fun_induction closeBlock nesting lead rest generalizing before with
  | case1 nesting lead =>
    have hnone := Begins.at?_nil ⟨before, hcs, rfl⟩
    rw [closeBrace?.eq_def]
    split <;> simp_all
  | case2 nesting lead c rest hc _ literal =>
    rename_i ih
    subst hlead
    obtain ⟨hat, hend⟩ := literalEnd_of_opens hcs hc
    have hcs' : cs = before ++ literal ++ (splitLiteral c rest).2 := by
      rw [hcs, List.append_assoc, List.cons_append, splitLiteral_append]
    rw [closeBrace?_of_at? hat, if_pos ((opensLiteral_iff hcs).mpr hc), hend,
      ih hcs' hopen (Lead.after_append _ _ _), Option.map_map]
    exact Option.map_congr fun _ _ => by simp [Nat.add_assoc]
  | case3 nesting lead c rest hc hclosed =>
    subst hlead
    have hquote := mt (opensLiteral_iff hcs).mp hc
    have hwide : ¬ IsWide c := by
      rcases brace_of_isClosed_next hopen hclosed with rfl | rfl <;> decide
    have hbegins : Begins cs (byteLength before) (c :: rest) := ⟨before, hcs, rfl⟩
    rw [closeBrace?_of_at? (hbegins.at?_of_not_isWide hwide), if_neg hquote, if_pos hclosed]
    simp [utf8Size_of_not_isWide hwide]
  | case4 nesting lead c rest hc hclosed ih =>
    subst hlead
    have hbegins : Begins cs (byteLength before) (c :: rest) := ⟨before, hcs, rfl⟩
    have hpass : closeBrace? (encode cs) nesting (byteLength before) =
        closeBrace? (encode cs) (nesting.next c) (byteLength (before ++ [c])) := by
      rw [byteLength_append, byteLength_cons, byteLength_nil, Nat.add_zero]
      by_cases hwide : IsWide c
      · rw [next_of_not_brace (hwide.ne (by decide)) (hwide.ne (by decide))]
        exact hbegins.pass_wide hwide (fun j d => closeBrace?_of_isWide hopen) (Nat.zero_le _)
      · rw [closeBrace?_of_at? (hbegins.at?_of_not_isWide hwide),
          if_neg (mt (opensLiteral_iff hcs).mp hc), if_neg hclosed, utf8Size_of_not_isWide hwide]
    have hcs' : cs = before ++ [c] ++ rest := by
      rw [hcs, List.append_assoc, List.singleton_append]
    rw [hpass, ih hcs' (Bool.eq_false_iff.mpr hclosed) (Lead.after_append _ _ _), Option.map_map]
    exact Option.map_congr fun _ _ => by simp [Nat.add_assoc]

theorem closeBrace?_eq (cs : List Char) (start : Nat) :
    closeBrace? (encode cs) {} start = blockEnd? cs start := by
  rw [blockEnd?]
  by_cases hle : start ≤ byteLength cs
  · have hwide : ∀ j d, at? (encode cs) j = some d → IsWide d →
        closeBrace? (encode cs) {} j = closeBrace? (encode cs) {} (j + 1) :=
      fun _ _ hd hd' => closeBrace?_of_isWide rfl hd hd'
    have hpass := (Begins.start cs).pass_splitFromByte hwide hle
    rw [Nat.zero_add, Nat.zero_add] at hpass
    rw [hpass]
    exact closeBrace?_eq_closeBlock (splitFromByte_append start cs).symm rfl
  · have hnone : closeBrace? (encode cs) {} start = none := by
      cases h : closeBrace? (encode cs) {} start with
      | none => rfl
      | some stop =>
        have := closeBrace?_bounds h
        rw [length_encode] at this
        omega
    rw [hnone, splitFromByte_of_byteLength_le (Nat.le_of_not_le hle)]
    simp [splitBlock, closeBlock]

end Reflector.Bytes
