import Reflector.Proofs.ByteDeclaration
import Reflector.Proofs.Extraction
import Reflector.Proofs.MemberName

namespace Reflector.Bytes

open Text

private theorem qualifiedName?_eq_none {rest : List Char} (hcolons : after? [':', ':'] rest = none)
    (hstart : ∀ c ∈ rest.head?, isNameStart c = false) : qualifiedName? rest = none := by
  rw [qualifiedName?, hcolons]
  cases rest with
  | nil => simp [qualified?]
  | cons c rest => simp [qualified?, hstart c rfl]

private theorem anglesEnd?_open {cs rest : List Char} {i : Nat} (h : Begins cs i ('<' :: rest)) :
    anglesEnd? (encode cs) 0 0 i =
      (angles? 1 0 rest).map fun (text, _) => i + byteLength ('<' :: text) := by
  have hinside : Begins cs (i + 1) rest := h.cons
  have hopen : anglesEnd? (encode cs) 0 0 i = anglesEnd? (encode cs) 1 0 (i + 1) := by
    rw [anglesEnd?_of_at? (h.at?_of_not_isWide (by decide))]
    rfl
  rw [hopen, anglesEnd?_eq hinside]
  exact Option.map_congr fun _ _ => Nat.add_assoc _ _ _

private theorem slice?_qualifiedName {cs rest word after : List Char} {i : Nat} (h : Begins cs i rest)
    (hname : qualifiedName? rest = some (word, after)) :
    slice? i (i + byteLength word) cs = some word := by
  rw [(qualifiedName?_sound hname).2] at h
  exact h.slice?

private theorem tokenEnd?_eq {cs rest : List Char} {i : Nat} (h : Begins cs i rest) :
    tokenEnd? cs i =
      some ((token? rest).map fun (token, _) => (token.isName, i + byteLength token.text)) := by
  have hcolon : ¬ IsWide ':' := by decide
  cases rest with
  | nil =>
    rw [tokenEnd?, h.at?_nil]
    rfl
  | cons c rest =>
    obtain ⟨d, hd, hdc⟩ := h.at?_head
    have hstart : isNameStart d = isNameStart c := hdc.any_eq fun _ => IsWide.isNameStart
    rw [tokenEnd?, hd, token?]
    simp only [hdc.eq_iff (show ¬ IsWide '<' by decide), hdc.eq_iff (show ¬ IsWide '*' by decide),
      hdc.eq_iff (show ¬ IsWide '&' by decide), hstart, h.startsWith?_eq hcolon hcolon]
    by_cases hangle : c = '<'
    · subst hangle
      rw [if_pos rfl, if_neg (by decide), if_pos rfl, anglesEnd?_open h, Option.map_map,
        Option.map_map]
      rfl
    · rw [if_neg hangle]
      by_cases hsign : (decide (c = '*') || decide (c = '&')) = true
      · rw [if_pos hsign, if_pos hsign]
        have hwide : ¬ IsWide c := by
          rw [Bool.or_eq_true, decide_eq_true_eq, decide_eq_true_eq] at hsign
          rcases hsign with rfl | rfl <;> decide
        simp [Token.isName, Token.text, utf8Size_of_not_isWide hwide]
      · rw [if_neg hsign, if_neg hsign, if_neg hangle]
        simp only [bind, Option.bind_some, pure]
        split
        · rw [qualifiedNameEnd?_eq h, Option.bind_some]
          cases hname : qualifiedName? (c :: rest) with
          | none => rfl
          | some name =>
            obtain ⟨text, after⟩ := name
            simp only [Option.map_some, slice?_qualifiedName h hname, Option.bind_some]
            split
            · rfl
            · rfl
        · rename_i hnone
          rw [Bool.or_eq_true, not_or, Bool.not_eq_true, Bool.not_eq_true,
            Option.isSome_eq_false_iff, Option.isNone_iff_eq_none] at hnone
          rw [qualifiedName?_eq_none hnone.2 (by rintro d ⟨⟩; exact hnone.1)]
          rfl

section

variable {cs : List Char} {tokens : Nat} {lastIdent : Option Nat} {i : Nat}

private theorem headFrom?_congr {j : Nat}
    (h : skipWhile isGapChar (encode cs) i = skipWhile isGapChar (encode cs) j) :
    headFrom? cs tokens lastIdent i = headFrom? cs tokens lastIdent j := by
  rw [headFrom?.eq_def, headFrom?.eq_def cs tokens lastIdent j]
  simp only
  generalize skipWhile isGapChar (encode cs) i = start at h ⊢
  subst h
  rfl

private theorem headFrom?_end (h : at? (encode cs) (skipWhile isGapChar (encode cs) i) = none) :
    headFrom? cs tokens lastIdent i = some none := by
  rw [headFrom?.eq_def]
  simp only
  split
  · rfl
  · simp_all

private theorem headFrom?_open (h : at? (encode cs) (skipWhile isGapChar (encode cs) i) = some '[')
    (hnext : at? (encode cs) (skipWhile isGapChar (encode cs) i + 1) = some '[') :
    headFrom? cs tokens lastIdent i =
      (skipAttributes? (encode cs) (skipWhile isGapChar (encode cs) i)).bind fun next? =>
        next?.elim (some none) (headFrom? cs tokens lastIdent) := by
  rw [headFrom?.eq_def]
  simp only
  split
  · simp_all
  · rename_i c hc
    obtain rfl := Option.some.inj (h.symm.trans hc)
    rw [if_neg (by decide), dif_pos ⟨rfl, hnext⟩]
    split <;> simp_all

private theorem headFrom?_terminator {c : Char}
    (h : at? (encode cs) (skipWhile isGapChar (encode cs) i) = some c) (hc : isTerminator c = true) :
    headFrom? cs tokens lastIdent i = some do
      let nameStart ← lastIdent
      guard (2 ≤ tokens)
      return ⟨nameStart, skipWhile isGapChar (encode cs) i, c⟩ := by
  rw [headFrom?.eq_def]
  simp only
  split
  · simp_all
  · rename_i d hd
    obtain rfl := Option.some.inj (h.symm.trans hd)
    rw [if_pos hc]

theorem headFrom?_token {c : Char}
    (h : at? (encode cs) (skipWhile isGapChar (encode cs) i) = some c)
    (hc : isTerminator c = false)
    (hopen : ¬ (c = '[' ∧ at? (encode cs) (skipWhile isGapChar (encode cs) i + 1) = some '[')) :
    headFrom? cs tokens lastIdent i =
      (tokenEnd? cs (skipWhile isGapChar (encode cs) i)).bind fun next? =>
        next?.elim (some none) fun (isName, next) => headFrom? cs (tokens + 1)
          (if isName then some (skipWhile isGapChar (encode cs) i) else none) next := by
  rw [headFrom?.eq_def]
  simp only
  split
  · simp_all
  · rename_i d hd
    obtain rfl := Option.some.inj (h.symm.trans hd)
    rw [hc, if_neg Bool.false_ne_true, dif_neg hopen]
    split <;> simp_all

private theorem skipWhile_skipWhile (p : Char → Bool) (bytes : List UInt8) (i : Nat) :
    skipWhile p bytes (skipWhile p bytes i) = skipWhile p bytes i := by
  fun_induction skipWhile p bytes i with
  | case1 i h =>
    rw [skipWhile.eq_def]
    split <;> simp_all
  | case2 i c h hc ih => exact ih
  | case3 i c h hc => rw [skipWhile_of_at? h, if_neg hc]

private theorem headFrom?_skip {next? : Option Nat} (h : skipAttributes? (encode cs) i = some next?) :
    headFrom? cs tokens lastIdent i = next?.elim (some none) (headFrom? cs tokens lastIdent) := by
  have hidem := skipWhile_skipWhile isGapChar (encode cs) i
  have hagain := h
  rw [skipAttributes?] at h
  split at h
  · contradiction
  · obtain rfl := Option.some.inj h
    exact headFrom?_congr hidem.symm
  · rename_i hopen
    obtain ⟨hat, hnext⟩ := at?_of_startsWith? hopen
    rw [headFrom?_open hat hnext, skipAttributes?_congr hidem, hagain]
    rfl

end

/-- The head as it is read behind so many tokens, the last of which is an identifier that begins at
`lastIdent`. -/
def declHeadOf? (tokens : Nat) (lastIdent : Option Nat) (head : MemberHead) : Option DeclHead := do
  let nameStart ← match head.tokens.getLast? with
    | none => lastIdent
    | some (start, token) => if token.isName then some start else none
  guard (2 ≤ tokens + head.tokens.length)
  return ⟨nameStart, head.stop - 1, head.terminator⟩

private theorem declHeadOf?_cons {tokens : Nat} {lastIdent : Option Nat} {start : Nat} {token : Token}
    {head : MemberHead} :
    declHeadOf? tokens lastIdent { head with tokens := (start, token) :: head.tokens } =
      declHeadOf? (tokens + 1) (if token.isName then some start else none) head := by
  have hcount : tokens + (head.tokens.length + 1) = tokens + 1 + head.tokens.length := by omega
  cases hlast : head.tokens.getLast? with
  | none =>
    cases hname : token.isName <;> simp [declHeadOf?, List.getLast?_cons, hlast, hcount, hname]
  | some last => simp [declHeadOf?, List.getLast?_cons, hlast, hcount]

theorem IsWide.isTerminator {c : Char} (h : IsWide c) : isTerminator c = false := by
  simp [Reflector.isTerminator, h.ne (show ¬ IsWide ';' by decide),
    h.ne (show ¬ IsWide '=' by decide), h.ne (show ¬ IsWide '{' by decide),
    h.ne (show ¬ IsWide '(' by decide)]

private theorem headFrom?_gap {cs rest gap after : List Char} {i : Nat} (h : Begins cs i rest)
    (hg : gap? rest = some (gap, after)) (tokens : Nat) (lastIdent : Option Nat) :
    headFrom? cs tokens lastIdent i = headFrom? cs tokens lastIdent (i + byteLength gap) ∧
      Begins cs (i + byteLength gap) after ∧ StopsGap after := by
  have hskip := skipAttributes?_eq h
  rw [hg, Option.map_some] at hskip
  rw [gap?_sound hg] at h
  exact ⟨headFrom?_skip hskip, h.append, (tokenGap_of_gap? hg).2⟩

private theorem headFrom?_of_stopsGap {cs rest : List Char} {c : Char} {i : Nat}
    (h : Begins cs i (c :: rest)) (hs : StopsGap (c :: rest)) (hc : isTerminator c = false)
    (tokens : Nat) (lastIdent : Option Nat) :
    headFrom? cs tokens lastIdent i =
      ((token? (c :: rest)).map fun (token, _) => (token.isName, i + byteLength token.text)).elim
        (some none) fun (isName, next) =>
          headFrom? cs (tokens + 1) (if isName then some i else none) next := by
  obtain ⟨d, hd, hdc⟩ := h.at?_head
  have hstart : skipWhile isGapChar (encode cs) i = i := skipGap_of_head? h hs.1
  have hterm : isTerminator d = false := (hdc.any_eq fun _ => IsWide.isTerminator).trans hc
  have hopen : ¬ (d = '[' ∧ at? (encode cs) (i + 1) = some '[') := by
    rintro ⟨rfl, hnext⟩
    obtain ⟨later, hlater⟩ := (h.at?_pair_iff (by decide) (by decide)).mp ⟨hd, hnext⟩
    exact hs.2 ⟨later, hlater.symm⟩
  rw [headFrom?_token (by rw [hstart]; exact hd) hterm (by rw [hstart]; exact hopen), hstart,
    tokenEnd?_eq h, Option.bind_some]

/-- A head is read by index as it is read on the text. -/
private theorem headFrom?_eq {cs rest : List Char} {tokens : Nat} {lastIdent : Option Nat} {i : Nat}
    (h : Begins cs i rest) :
    headFrom? cs tokens lastIdent i =
      some ((MemberHead.read? i rest).bind (declHeadOf? tokens lastIdent)) := by
  -- The text reader skips a gap and reads on in one step, the byte reader may take two.
  fun_induction MemberHead.read? i rest generalizing tokens lastIdent with
  | case1 i rest hg =>
    have hskip := skipAttributes?_eq h
    rw [hg, Option.map_none] at hskip
    rw [headFrom?_skip hskip]
    rfl
  | case2 i rest gap after hg hnil =>
    obtain ⟨hread, hafter, hstops⟩ := headFrom?_gap h hg tokens lastIdent
    rw [List.head?_eq_none_iff] at hnil
    subst hnil
    rw [hread, headFrom?_end]
    · rfl
    · rw [skipGap_of_head? hafter hstops.1]
      exact hafter.at?_nil
  | case3 i rest gap after hg start c hc =>
    rename_i hterm
    obtain ⟨hread, hafter, hstops⟩ := headFrom?_gap h hg tokens lastIdent
    obtain ⟨later, rfl⟩ := List.head?_eq_some_iff.mp hc
    have hwide : ¬ IsWide c := IsWide.not_of (fun _ => IsWide.isTerminator) hterm
    have hat := hafter.at?_of_not_isWide hwide
    have hgap := skipGap_of_head? hafter hstops.1
    rw [hread, headFrom?_terminator (by rw [hgap]; exact hat) hterm, hgap]
    simp [declHeadOf?, start, utf8Size_of_not_isWide hwide]
  | case4 i rest gap after hg c hc hterm ht =>
    obtain ⟨hread, hafter, hstops⟩ := headFrom?_gap h hg tokens lastIdent
    obtain ⟨later, rfl⟩ := List.head?_eq_some_iff.mp hc
    rw [hread, headFrom?_of_stopsGap hafter hstops (Bool.eq_false_iff.mpr hterm), ht]
    rfl
  | case5 i rest gap after hg start c hc hterm token behind ht _ =>
    rename_i ih
    obtain ⟨hread, hafter, hstops⟩ := headFrom?_gap h hg tokens lastIdent
    obtain ⟨later, rfl⟩ := List.head?_eq_some_iff.mp hc
    have hbehind : Begins cs (start + byteLength token.text) behind := by
      rw [(token?_sound ht).2] at hafter
      exact hafter.append
    rw [hread, headFrom?_of_stopsGap hafter hstops (Bool.eq_false_iff.mpr hterm), ht,
      Option.map_some, Option.elim_some]
    refine (ih hbehind).trans ?_
    rw [Option.bind_map]
    congr 2
    funext head
    exact declHeadOf?_cons.symm

private theorem memberHead?_of_begins {cs rest : List Char} {pos : Nat} (h : Begins cs pos rest) :
    memberHead? cs pos = (MemberHead.read? pos rest).filter (·.declared?.isSome) := by
  obtain ⟨before, hcs, hpos⟩ := h
  rw [memberHead?, splitAtByte?_eq_some_iff.mpr ⟨hcs, hpos⟩]
  cases hread : MemberHead.read? pos rest with
  | none => simp [hread]
  | some head => cases hdeclared : head.declared?.isSome <;> simp [hread, hdeclared, guard, Option.filter]

private theorem declHeadOf?_eq (head : MemberHead) :
    declHeadOf? 0 none head =
      head.declared?.map fun (start, _) => ⟨start, head.stop - 1, head.terminator⟩ := by
  unfold declHeadOf? MemberHead.declared?
  cases hlast : head.tokens.getLast? with
  | none => rfl
  | some last =>
    obtain ⟨start, token⟩ := last
    cases hname : token.isName <;> by_cases hcount : 2 ≤ head.tokens.length <;>
      simp [hname, hcount, guard, Option.filter]

private theorem declHead?_eq {cs rest : List Char} {pos : Nat} (h : Begins cs pos rest) :
    declHead? cs pos = some ((memberHead? cs pos).bind fun head =>
      head.declared?.map fun (start, _) => ⟨start, head.stop - 1, head.terminator⟩) := by
  have hskip := skipAttributes?_eq h
  have hread : declHead? cs pos = headFrom? cs 0 none pos := by
    rw [declHead?, hskip, headFrom?_skip hskip]
    cases gap? rest <;> rfl
  rw [hread, headFrom?_eq h, memberHead?_of_begins h]
  congr 1
  cases hhead : MemberHead.read? pos rest with
  | none => rfl
  | some head =>
    rw [Option.bind_some, declHeadOf?_eq]
    cases hdeclared : head.declared? <;> simp [Option.filter, hdeclared]

private theorem stop_pos_of_memberHead? {cs : List Char} {pos : Nat} {head : MemberHead}
    (h : memberHead? cs pos = some head) : 0 < head.stop := by
  obtain ⟨before, rest, -, -, hread, -⟩ := memberHead?_eq_some_iff.mp h
  obtain ⟨text, gap, after, -, htakes⟩ := MemberHead.takes_of_read? hread
  have hpos := head.terminator.utf8Size_pos
  have hstop := htakes.stop
  simp only [byteLength_append, byteLength_cons, byteLength_nil] at hstop
  omega

/-- At a place where a character begins or the text ends, the declaration is bounded by index as it is on
the text; no cut fails. -/
theorem declaration_eq {cs : List Char} {pos : Nat} (h : IsBoundary cs pos) :
    fieldEnd? cs pos = some (tokenReader.fieldStop? cs pos) ∧
      methodEnd? cs pos = some (tokenReader.methodStop? cs pos) ∧
      nameStart? cs pos = some (tokenReader.nameOffset cs pos) := by
  obtain ⟨before, rest, hcs, hpos⟩ := h.exists_append
  have hbegins : Begins cs pos rest := ⟨before, hcs, hpos⟩
  have hread := declHead?_eq hbegins
  cases hhead : memberHead? cs pos with
  | none =>
    rw [hhead] at hread
    simp [fieldEnd?, methodEnd?, nameStart?, tokenReader, hread, hhead]
  | some head =>
    obtain ⟨-, -, -, -, -, hdeclared⟩ := memberHead?_eq_some_iff.mp hhead
    obtain ⟨⟨start, token⟩, hdeclared⟩ := Option.isSome_iff_exists.mp hdeclared
    have hstop : head.stop - 1 + 1 = head.stop := Nat.sub_add_cancel (stop_pos_of_memberHead? hhead)
    rw [hhead, Option.bind_some, hdeclared, Option.map_some] at hread
    by_cases hterm : head.terminator = '('
    · simp [fieldEnd?, methodEnd?, nameStart?, tokenReader, hread, hhead, hdeclared, hterm, hstop,
        Option.filter]
    · simp [fieldEnd?, methodEnd?, nameStart?, tokenReader, hread, hhead, hdeclared, hterm, hstop,
        Option.filter]

theorem isBoundary_of_append {cs before rest : List Char} (h : cs = before ++ rest) :
    IsBoundary cs (byteLength before) :=
  Option.isSome_iff_exists.mpr ⟨_, splitAtByte?_eq_some_iff.mpr ⟨h, rfl⟩⟩

theorem isBoundary_nameOffset {cs : List Char} {pos : Nat} (h : IsBoundary cs pos) :
    IsBoundary cs (tokenReader.nameOffset cs pos) := by
  rcases isEmpty_or_nonempty (DeclaredMember cs pos) with hnone | ⟨⟨member⟩⟩
  · rwa [nameOffset_of_isEmpty hnone]
  · rw [nameOffset_of_declaredMember member]
    have htext : cs = member.before ++ member.front ++
        (member.name ++ (member.gap ++ member.terminator :: member.after)) :=
      member.text_eq.trans (by simp only [List.append_assoc])
    exact isBoundary_of_append htext

theorem bounds_of_end? {cs : List Char} {pos stop : Nat} {kind : MemberKind}
    (h : kind.end? tokenReader cs pos = some stop) :
    IsBoundary cs stop ∧ pos ≤ tokenReader.nameOffset cs pos ∧
      tokenReader.nameOffset cs pos < stop := by
  obtain ⟨member, -, rfl⟩ := MemberKind.end?_eq_some_iff.mp h
  have hpos := member.terminator.utf8Size_pos
  have htext : cs = member.before ++ member.front ++ member.name ++ member.gap ++
      [member.terminator] ++ member.after :=
    member.text_eq.trans (by simp only [List.append_assoc, List.singleton_append])
  refine ⟨isBoundary_of_append htext, ?_, ?_⟩
  · rw [nameOffset_of_declaredMember member, DeclaredMember.start, byteLength_append,
      member.pos_eq]
    exact Nat.le_add_right _ _
  · rw [nameOffset_of_declaredMember member]
    simp only [DeclaredMember.start, DeclaredMember.stop, byteLength_append, byteLength_cons,
      byteLength_nil]
    omega

end Reflector.Bytes
