import Reflector.Class.Scan
import Reflector.Proofs.Search
/-!
# What a scan goes through

A scan ends in one of three ways or finds a class and goes on behind it. Facts about every scan are
proved by induction over this derivation, from facts about one header and the block it opens.
-/

namespace Reflector

open Text Source

/-- A scan that has read the text `before` and goes on with the text `cs`. -/
inductive Scans (keywords : List (List Char)) : List Char → List Char → Scan → Prop
  | complete {before cs} : (headerPattern keywords).find? none cs = none →
      Scans keywords before cs ⟨[], .complete⟩
  | unbalanced {before cs o} : (headerPattern keywords).find? none cs = some o →
      splitBlock (Lead.none.after o.before) (o.piece ++ o.after) = none →
      Scans keywords before cs ⟨[], .unbalanced (byteLength (before ++ o.before))⟩
  | failed {before cs o body rest failure} : (headerPattern keywords).find? none cs = some o →
      splitBlock (Lead.none.after o.before) (o.piece ++ o.after) = some (body, rest) →
      headerName keywords o.piece = .error failure →
      Scans keywords before cs ⟨[], .failed failure⟩
  | found {before cs o body rest name later} : (headerPattern keywords).find? none cs = some o →
      splitBlock (Lead.none.after o.before) (o.piece ++ o.after) = some (body, rest) →
      headerName keywords o.piece = .ok name →
      Scans keywords (before ++ o.before ++ body) rest later →
      Scans keywords before cs
        ⟨⟨name, o.piece, body, byteLength (before ++ o.before)⟩ :: later.classes, later.ending⟩

theorem scans_startingAt (keywords : List (List Char)) (before cs : List Char) :
    Scans keywords before cs (Scan.startingAt keywords (byteLength before) cs) := by
  generalize hoffset : byteLength before = offset
  fun_induction Scan.startingAt keywords offset cs generalizing before with
  | case1 offset cs hf => exact .complete hf
  | case2 offset cs o hf start hb =>
    subst hoffset
    have hend : Scans keywords before cs ⟨[], .unbalanced (byteLength (before ++ o.before))⟩ :=
      .unbalanced hf hb
    rwa [byteLength_append] at hend
  | case3 offset cs o hf body rest hb failure hn => exact .failed hf hb hn
  | case4 offset cs o hf start body rest hb name hn _ later ih =>
    subst hoffset
    have hlater := ih (before ++ o.before ++ body) (by simp [start, Nat.add_assoc])
    have hfound : Scans keywords before cs
        ⟨⟨name, o.piece, body, byteLength (before ++ o.before)⟩ :: later.classes, later.ending⟩ :=
      .found hf hb hn hlater
    rwa [byteLength_append] at hfound

/-- The text decides the scan. -/
private theorem Scans.unique {keywords : List (List Char)} {before cs : List Char} {scan scan' : Scan}
    (h : Scans keywords before cs scan) (h' : Scans keywords before cs scan') : scan = scan' := by
  induction h generalizing scan' with
  | complete hf => cases h' <;> simp_all
  | unbalanced hf hb => cases h' <;> simp_all
  | failed hf hb hn => cases h' <;> simp_all
  | @found before cs o body rest name later hf hb hn _ ih =>
    cases h' with
    | complete hf' => simp_all
    | unbalanced hf' hb' => simp_all
    | failed hf' hb' hn' => simp_all
    | @found _ _ o' body' rest' name' later' hf' hb' hn' hlater =>
      obtain rfl := Option.some.inj (hf.symm.trans hf')
      obtain ⟨rfl, rfl⟩ := Prod.mk.inj (Option.some.inj (hb.symm.trans hb'))
      obtain rfl := Except.ok.inj (hn.symm.trans hn')
      rw [ih hlater]

theorem Scans.scanClasses_eq {keywords : List (List Char)} {cs : List Char} {scan : Scan}
    (h : Scans keywords [] cs scan) : scanClasses keywords cs = scan :=
  (scans_startingAt keywords [] cs).unique h

end Reflector
