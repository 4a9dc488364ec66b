import Reflector.Bytes.Generation
import Reflector.Proofs.ByteBlock
import Reflector.Proofs.ByteHead
import Reflector.Proofs.ByteSource
import Reflector.Proofs.Locator
import Reflector.Proofs.Sweep
/-!
# Generation by byte index

Cut by cut, a run by byte index is the run on the text. The scan for classes never leaves the places where
a class begins or ends, and a header without a brace in its keyword lies within the block it opens.
-/

namespace Reflector.Bytes

open Text Source

private theorem slice?_eq_slice {cs : List Char} {start stop : Nat} (hstart : IsBoundary cs start)
    (hstop : IsBoundary cs stop) (hle : start ≤ stop) :
    slice? start stop cs = some (slice start stop cs) := by
  obtain ⟨before, after, hcs, hbefore, hthrough⟩ := standsBetween_slice hstart hstop hle
  have hbegins : Begins cs start (slice start stop cs ++ after) :=
    ⟨before, by rw [← List.append_assoc]; exact hcs, hbefore⟩
  rw [byteLength_append, hbefore] at hthrough
  have hslice := hbegins.slice?
  rwa [hthrough] at hslice

private theorem singleColon?_of_at? {bytes : List UInt8} {i : Nat} {c : Char}
    (h : at? bytes i = some c) :
    singleColon? bytes i =
      if c = ':' && left? bytes i != some (some ':') && at? bytes (i + 1) != some ':' then some i
      else singleColon? bytes (i + 1) := by
  rw [singleColon?.eq_def]
  split
  · simp_all
  · rename_i d hd
    obtain rfl := Option.some.inj (h.symm.trans hd)
    rfl

private theorem singleColon?_eq {cs rest : List Char} (before : List Char)
    (hcs : cs = before ++ rest) :
    singleColon? (encode cs) (byteLength before) =
      (beforeColon? before.getLast? rest).map fun front => byteLength before + byteLength front := by
  have hcolon : ¬ IsWide ':' := by decide
  induction rest generalizing before with
  | nil =>
    have hnone := Begins.at?_nil ⟨before, hcs, rfl⟩
    rw [singleColon?.eq_def]
    split <;> simp_all [beforeColon?]
  | cons c rest ih =>
    have hbegins : Begins cs (byteLength before) (c :: rest) := ⟨before, hcs, rfl⟩
    have hnext := ih (before ++ [c]) (by simp [hcs])
    rw [List.getLast?_concat, byteLength_append, byteLength_cons, byteLength_nil, Nat.add_zero]
      at hnext
    have hshift : ∀ found : Option (List Char),
        (found.map fun front => byteLength before + c.utf8Size + byteLength front) =
          (found.map (c :: ·)).map fun front => byteLength before + byteLength front := by
      intro found
      rw [Option.map_map]
      exact Option.map_congr fun _ _ => by simp [Nat.add_assoc]
    rw [hshift] at hnext
    rw [beforeColon?]
    by_cases hwide : IsWide c
    · have hpass : singleColon? (encode cs) (byteLength before) =
          singleColon? (encode cs) (byteLength before + c.utf8Size) := by
        refine hbegins.pass_wide (f := singleColon? (encode cs)) hwide (fun j d hd hd' => ?_)
          (Nat.zero_le _)
        rw [singleColon?_of_at? hd]
        simp [hd'.ne hcolon]
      rw [hpass, hnext, if_neg (by simp [hwide.ne hcolon])]
    · have hsize := utf8Size_of_not_isWide hwide
      have hleft : (left? (encode cs) (byteLength before) != some (some ':')) =
          (before.getLast? != some ':') := by
        obtain ⟨left, hleft, hclass⟩ := left?_eq hcs
        have hcolons := hclass (· == ':') fun d hd => by simp [hd.ne hcolon]
        have hbne : ∀ o : Option Char, (o != some ':') = !o.any (· == ':') := by
          rintro (_ | d) <;> rfl
        rw [hleft, hbne, ← hcolons, ← hbne]
        rfl
      have hright : (at? (encode cs) (byteLength before + 1) != some ':') =
          (rest.head? != some ':') := by
        have hbehind := hbegins.cons
        rw [hsize] at hbehind
        rw [bne, bne, Bool.not_inj_iff, Bool.eq_iff_iff, beq_iff_eq, beq_iff_eq,
          hbehind.at?_eq_some_iff hcolon]
      rw [hsize] at hnext
      rw [singleColon?_of_at? (hbegins.at?_of_not_isWide hwide), hleft, hright, hnext]
      split
      · rfl
      · rfl

private theorem beforeColon?_sound {left : Option Char} {cs front : List Char}
    (h : beforeColon? left cs = some front) : front <+: cs := by
  induction cs generalizing left front with
  | nil => contradiction
  | cons c cs ih =>
    rw [beforeColon?] at h
    split at h
    · obtain rfl := Option.some.inj h
      exact List.nil_prefix
    · obtain ⟨front, hfront, rfl⟩ := Option.map_eq_some_iff.mp h
      exact (List.prefix_cons_inj c).mpr (ih hfront)

private theorem nameEnd?_eq (header : List Char) : nameEnd? header = some (nameEnd header) := by
  have hcolon : singleColon? (encode header) 0 =
      (beforeColon? none header).map fun front => 0 + byteLength front :=
    singleColon?_eq [] rfl
  unfold nameEnd? nameEnd
  rw [hcolon]
  cases hfront : beforeColon? none header with
  | none => rfl
  | some front =>
    obtain ⟨later, rfl⟩ := beforeColon?_sound hfront
    exact (Begins.start (front ++ later)).slice?

private theorem headerName?_eq (keywords : List (List Char)) (header : List Char) :
    headerName? keywords header = some (headerName keywords header) := by
  rw [headerName?, nameEnd?_eq, headerName, Reflector.headerName?]
  cases hword : lastWord? (nameEnd (attributePattern.replace [' '] none header)) with
  | none => simp [hword]
  | some word =>
    by_cases hkeyword : word ∈ keywords
    · simp [hword, hkeyword, guard, Option.filter]
    · simp [hword, hkeyword, guard, Option.filter]

section

variable {keywords : List (List Char)} {buffer before cs : List Char} {o : Occurrence}

private theorem classAt?_eq {body rest : List Char} (hb : buffer = before ++ cs)
    (hf : (headerPattern keywords).find? none cs = some o)
    (hsplit : splitBlock (Lead.none.after o.before) (o.piece ++ o.after) = some (body, rest)) :
    let start := byteLength before + byteLength o.before
    classAt? keywords buffer start (start + byteLength body) (byteLength o.piece) =
      some ((headerName keywords o.piece).map fun name => ⟨name, o.piece, body, start⟩) := by
  have hcs := (Pattern.find?_eq_some hf).1
  have hheader : Begins buffer (byteLength before + byteLength o.before) (o.piece ++ o.after) :=
    ⟨before ++ o.before, by rw [hb, hcs, List.append_assoc], byteLength_append _ _⟩
  have hbody : Begins buffer (byteLength before + byteLength o.before) (body ++ rest) := by
    rwa [(splitBlock_sound hsplit).2] at hheader
  intro start
  simp [classAt?, start, hheader.slice?, hbody.slice?, headerName?_eq]

private theorem scanFrom?_of_find?_eq_none (hb : buffer = before ++ cs)
    (hf : (headerPattern keywords).find? none cs = none) :
    scanFrom? keywords buffer (byteLength before) = some ⟨[], .complete⟩ := by
  have hsuffix : suffix? (byteLength before) buffer = some cs := Begins.suffix? ⟨before, hb, rfl⟩
  rw [scanFrom?, hsuffix]
  simp only [hf]

private theorem scanFrom?_of_find?_eq_some (hb : buffer = before ++ cs)
    (hf : (headerPattern keywords).find? none cs = some o) :
    scanFrom? keywords buffer (byteLength before) =
      (closeBrace? (encode buffer) {} (byteLength before + byteLength o.before)).elim
        (some ⟨[], .unbalanced (byteLength before + byteLength o.before)⟩) fun stop => do
          match ← classAt? keywords buffer (byteLength before + byteLength o.before) stop
              (byteLength o.piece) with
          | .error failure => return ⟨[], .failed failure⟩
          | .ok decl =>
            let later ← scanFrom? keywords buffer stop
            return ⟨decl :: later.classes, later.ending⟩ := by
  have hsuffix : suffix? (byteLength before) buffer = some cs := Begins.suffix? ⟨before, hb, rfl⟩
  rw [scanFrom?, hsuffix]
  simp only [hf]
  split
  · rename_i hstop
    rw [hstop]
    rfl
  · rename_i stop hstop
    rw [hstop, Option.elim_some]
    cases classAt? keywords buffer (byteLength before + byteLength o.before) stop
      (byteLength o.piece) with
    | none => rfl
    | some decl =>
      cases decl with
      | error failure => rfl
      | ok decl => exact Option.map_eq_bind

/-- Behind a brace or at the start, a scan by byte index goes the way of the scan of the text. -/
private theorem scanFrom?_of_scans {scan : Scan} (hs : IsSeam before)
    (h : Scans keywords before cs scan)
    (hb : buffer = before ++ cs) : scanFrom? keywords buffer (byteLength before) = some scan := by
  induction h with
  | complete hf => exact scanFrom?_of_find?_eq_none hb hf
  | @unbalanced before cs o hf hsplit =>
    have hstop := Locator.blockEnd?_behind hs hb hf
    rw [hsplit, ← closeBrace?_eq] at hstop
    rw [scanFrom?_of_find?_eq_some hb hf, hstop, byteLength_append]
    rfl
  | @failed before cs o body rest failure hf hsplit hn =>
    have hstop := Locator.blockEnd?_behind hs hb hf
    rw [hsplit, ← closeBrace?_eq] at hstop
    have hclass := classAt?_eq hb hf hsplit
    rw [hn] at hclass
    rw [scanFrom?_of_find?_eq_some hb hf, hstop, Option.map_some, Option.elim_some, hclass]
    rfl
  | @found before cs o body rest name later hf hsplit hn _ ih =>
    have hstop := Locator.blockEnd?_behind hs hb hf
    rw [hsplit, ← closeBrace?_eq] at hstop
    have hclass := classAt?_eq hb hf hsplit
    rw [hn] at hclass
    have hlater := ih (Or.inr ((splitBlock_ends hsplit).append_left _))
      (text_behind_found hb hf hsplit)
    rw [byteLength_append, byteLength_append] at hlater
    rw [scanFrom?_of_find?_eq_some hb hf, hstop, Option.map_some, Option.elim_some, hclass,
      byteLength_append]
    simp [Except.map, hlater]

end

private theorem declEnd?_eq {cs : List Char} {pos : Nat} (h : IsBoundary cs pos) (kind : MemberKind) :
    declEnd? kind cs pos = some (kind.end? tokenReader cs pos) := by
  obtain ⟨hfield, hmethod, -⟩ := declaration_eq h
  cases kind with
  | field => exact hfield
  | method => exact hmethod

private theorem markedName?_eq {body : List Char} {pos : Nat} (h : IsBoundary body pos)
    (kind : MemberKind) :
    markedName? body kind pos = some (Reflector.markedName? tokenReader body kind pos) := by
  rw [markedName?, declEnd?_eq h, Reflector.markedName?]
  cases hend : kind.end? tokenReader body pos with
  | none => rfl
  | some stop =>
    obtain ⟨hstop, -, hlt⟩ := bounds_of_end? hend
    have hmin : min (tokenReader.nameOffset body pos) stop = tokenReader.nameOffset body pos :=
      Nat.min_eq_left (Nat.le_of_lt hlt)
    have hslice := slice?_eq_slice (isBoundary_nameOffset h) hstop (Nat.le_of_lt hlt)
    simp [(declaration_eq h).2.2, hmin, hslice]

private theorem isBoundary_of_mark {header body members : List Char}
    (hbody : body = header ++ members)
    (markNames : List (List Char)) :
    ∀ span ∈ (markPattern markNames).spansFrom (byteLength header) none members,
      IsBoundary body span.start := by
  intro span hspan
  have hsweep := Pattern.isSweep_spansFrom (markPattern markNames) (byteLength header) none members
  obtain ⟨before, piece, after, hmembers, hstart, -, -⟩ := hsweep.recognised span hspan
  rw [hstart, ← byteLength_append]
  exact isBoundary_of_append (hbody.trans (by rw [hmembers, List.append_assoc]))

private theorem mapM_eq_some_map {α β : Type} {f : α → Option β} {g : α → β} {xs : List α}
    (h : ∀ x ∈ xs, f x = some (g x)) : xs.mapM f = some (xs.map g) := by
  induction xs with
  | nil => rfl
  | cons x xs ih =>
    obtain ⟨hx, hxs⟩ := List.forall_mem_cons.mp h
    rw [List.mapM_cons, hx, ih hxs]
    rfl

private theorem marked?_eq {decl : ClassBlock} (h : decl.header <+: decl.body)
    (markNames : List (List Char)) (kind : MemberKind) :
    marked? markNames decl kind = some (decl.marked markNames tokenReader kind) := by
  obtain ⟨members, hbody⟩ := h
  have hsuffix : suffix? (byteLength decl.header) decl.body = some members :=
    Begins.suffix? ⟨decl.header, hbody.symm, rfl⟩
  have hfound := mapM_eq_some_map fun span hspan =>
    markedName?_eq (isBoundary_of_mark hbody.symm markNames span hspan) kind
  simp only [marked?, hsuffix, hfound, bind, Option.bind_some, pure]
  rw [List.filterMap_map, ClassBlock.marked, ClassBlock.markOffsets, List.filterMap_map, ← hbody,
    splitFromByte_byteLength]
  rfl

private theorem record?_eq (config : Config) {decl : ClassBlock} (h : decl.header <+: decl.body) :
    record? config decl =
      some (decl.recordEvents config tokenReader, decl.record config tokenReader) := by
  rw [record?, marked?_eq h, marked?_eq h]
  rfl

private theorem add?_eq (config : Config) (target : String) (c : Collection) {decl : ClassBlock}
    (h : decl.header <+: decl.body) :
    add? config target c decl = some (c.add config tokenReader target decl) := by
  rw [add?, Collection.add]
  split
  · rw [record?_eq config h]
    rfl
  · rfl

private theorem foldlM_add?_eq (config : Config) (target : String) {decls : List ClassBlock}
    (h : ∀ decl ∈ decls, decl.header <+: decl.body) (c : Collection) :
    decls.foldlM (add? config target) c =
      some (decls.foldl (Collection.add config tokenReader target) c) := by
  induction decls generalizing c with
  | nil => rfl
  | cons decl decls ih =>
    obtain ⟨hdecl, hdecls⟩ := List.forall_mem_cons.mp h
    rw [List.foldlM_cons, add?_eq config target c hdecl, List.foldl_cons, ← ih hdecls]
    rfl

/-- Where no class keyword has an opening brace, no cut of a run fails, and the run by byte index is the
run on the text. -/
theorem generate?_eq (config : Config) (target source : String)
    (hk : ∀ keyword ∈ config.classKeywords, '{' ∉ keyword.toList) :
    generate? config target source = some (generate config tokenReader target source) := by
  have hscan : scanFrom? (config.classKeywords.map String.toList)
      (prepare config.stripKeyword.toList source.toList) 0 =
        some (config.scan (prepare config.stripKeyword.toList source.toList)) :=
    scanFrom?_of_scans (Or.inl rfl) (scans_startingAt _ [] _) rfl
  have hheaders : ∀ decl ∈ (config.scan (prepare config.stripKeyword.toList source.toList)).classes,
      decl.header <+: decl.body :=
    fun decl hdecl => (standsIn_of_mem_scan hk decl hdecl).header
  rw [generate?, prepare?_eq]
  simp only [bind, Option.bind_some, hscan, foldlM_add?_eq config target hheaders, pure]
  rw [generate, registerClasses]
  cases hend : (config.scan (prepare config.stripKeyword.toList source.toList)).ending.failure? with
  | none => rfl
  | some failure => rfl

end Reflector.Bytes
