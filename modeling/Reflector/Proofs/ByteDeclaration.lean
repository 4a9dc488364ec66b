import Reflector.Bytes.Declaration
import Reflector.Proofs.ByteText
import Reflector.Proofs.MemberGrammar

namespace Reflector.Bytes

open Text

private theorem skipGap_eq {cs rest : List Char} {i : Nat} (h : Begins cs i rest) :
    skipWhile isGapChar (encode cs) i = i + byteLength (rest.takeWhile isGapChar) :=
  skipWhile_eq (fun _ _ hc hd => by rw [hc.isGapChar, hd.isGapChar]) h

private theorem skipName_eq {cs rest : List Char} {i : Nat} (h : Begins cs i rest) :
    skipWhile isNameChar (encode cs) i = i + byteLength (rest.takeWhile isNameChar) :=
  skipWhile_eq (fun _ _ hc hd => by rw [hc.isNameChar, hd.isNameChar]) h

theorem skipGap_of_head? {cs rest : List Char} {i : Nat} (h : Begins cs i rest)
    (hrest : ∀ c ∈ rest.head?, isGapChar c = false) : skipWhile isGapChar (encode cs) i = i := by
  have hnil : rest.takeWhile isGapChar = [] := by
    cases rest with
    | nil => rfl
    | cons c rest => rw [List.takeWhile_cons, hrest c rfl, if_neg Bool.false_ne_true]
  rw [skipGap_eq h, hnil]
  rfl

theorem findPair?_eq_attributeEnd? {cs rest : List Char} {i : Nat} (h : Begins cs i rest) :
    (findPair? ']' ']' (encode cs) i).map (· + 2) =
      (attributeEnd? rest).map fun (text, _) => i + byteLength text := by
  have hclose : ¬ IsWide ']' := by decide
  fun_induction attributeEnd? rest generalizing i with
  | case1 => rw [h.findPair?_nil]; rfl
  | case2 rest =>
    rw [h.findPair?_here hclose hclose]
    rfl
  | case3 c rest hne ih =>
    rw [h.findPair?_cons hclose hclose (cons_ne_pair hne), ih h.cons, Option.map_map]
    exact Option.map_congr fun _ _ => by simp [Nat.add_assoc]

theorem skipAttributes?_congr {bytes : List UInt8} {i j : Nat}
    (h : skipWhile isGapChar bytes i = skipWhile isGapChar bytes j) :
    skipAttributes? bytes i = skipAttributes? bytes j := by
  rw [skipAttributes?, skipAttributes?, h]

/-- An attribute is passed over by index as far as it goes in the text. -/
theorem skipAttributes?_open {cs inside : List Char} {i : Nat}
    (h : Begins cs i ('[' :: '[' :: inside)) :
    skipAttributes? (encode cs) i =
      (attributeEnd? inside).elim (some none) fun (text, _) =>
        skipAttributes? (encode cs) (i + 2 + byteLength text) := by
  have hopen : ¬ IsWide '[' := by decide
  have hclose := findPair?_eq_attributeEnd? (h.pair hopen hopen)
  rw [skipAttributes?, skipGap_of_head? h (by rintro c ⟨⟩; rfl), h.startsWith?_here hopen hopen]
  simp only
  split
  · rename_i hnone
    rw [hnone, Option.map_none, eq_comm, Option.map_eq_none_iff] at hclose
    rw [hclose, Option.elim_none]
  · rename_i close hsome
    rw [hsome, Option.map_some, eq_comm, Option.map_eq_some_iff] at hclose
    obtain ⟨⟨text, rest⟩, hend, hstop⟩ := hclose
    rw [hend, Option.elim_some, ← hstop]

theorem skipAttributes?_eq {cs rest : List Char} {i : Nat} (h : Begins cs i rest) :
    skipAttributes? (encode cs) i = some ((gap? rest).map fun (gap, _) => i + byteLength gap) := by
  have hopen : ¬ IsWide '[' := by decide
  fun_induction gap? rest generalizing i with
  | case1 inside hend =>
    rw [skipAttributes?_open h, hend]
    rfl
  | case2 inside text rest hend _ ih =>
    have hinside := h.pair hopen hopen
    rw [attributeEnd?_sound hend] at hinside
    rw [skipAttributes?_open h, hend, Option.elim_some]
    simp only
    rw [ih hinside.append, Option.map_map]
    congr 1
    refine Option.map_congr fun _ _ => ?_
    simp [byteLength_pair hopen hopen, Nat.add_assoc]
  | case3 c rest hne hc ih =>
    have hwide : ¬ IsWide c := IsWide.not_of (fun _ => IsWide.isGapChar) hc
    have hskip : skipWhile isGapChar (encode cs) i = skipWhile isGapChar (encode cs) (i + 1) := by
      rw [skipWhile_of_at? (h.at?_of_not_isWide hwide), if_pos hc]
    have hrest := h.cons
    rw [utf8Size_of_not_isWide hwide] at hrest
    rw [skipAttributes?_congr hskip, ih hrest, Option.map_map]
    congr 1
    refine Option.map_congr fun _ _ => ?_
    simp [utf8Size_of_not_isWide hwide, Nat.add_assoc]
  | case4 c rest hne hc =>
    have hgap : isGapChar c = false := Bool.eq_false_iff.mpr hc
    rw [skipAttributes?, skipGap_of_head? h (by rintro d ⟨⟩; exact hgap),
      h.startsWith?_of_ne hopen hopen (cons_ne_pair hne)]
    rfl
  | case5 =>
    rw [skipAttributes?, skipGap_of_head? h (by simp), h.startsWith?_of_ne hopen hopen (by simp)]
    rfl

private theorem qualifiedEnd?_of_isNameStart {bytes : List UInt8} {i : Nat} {c : Char}
    (h : at? bytes i = some c) (hc : isNameStart c = true) {colons : Bool}
    (hcolons : startsWith? ':' ':' bytes (behindIdentifier bytes i) = some colons) :
    qualifiedEnd? bytes i =
      if colons then
        qualifiedEnd? bytes (skipWhile isGapChar bytes (behindIdentifier bytes i + 2))
      else some (some (skipWhile isNameChar bytes i)) := by
  rw [qualifiedEnd?.eq_def]
  split
  · simp_all
  · rename_i d hd
    obtain rfl := Option.some.inj (h.symm.trans hd)
    rw [if_pos hc, hcolons]
    cases colons <;> rfl

private theorem qualifiedEnd?_of_head? {cs rest : List Char} {i : Nat} (h : Begins cs i rest)
    (hrest : ∀ c ∈ rest.head?, isNameStart c = false) : qualifiedEnd? (encode cs) i = some none := by
  rw [qualifiedEnd?.eq_def]
  split
  · rfl
  · rename_i d hd
    cases rest with
    | nil =>
      have hnone := h.at?_nil
      simp_all
    | cons c rest =>
      obtain ⟨e, he, hec⟩ := h.at?_head
      obtain rfl := Option.some.inj (hd.symm.trans he)
      rw [hec.any_eq fun _ => IsWide.isNameStart, hrest c rfl, if_neg Bool.false_ne_true]

private theorem behindIdentifier_eq {cs rest : List Char} {i : Nat} {c : Char}
    (h : Begins cs i (c :: rest))
    (hc : isNameStart c = true) :
    at? (encode cs) i = some c ∧
      skipWhile isNameChar (encode cs) i = i + byteLength (c :: rest.takeWhile isNameChar) ∧
      behindIdentifier (encode cs) i = i + byteLength (c :: rest.takeWhile isNameChar ++
        (rest.dropWhile isNameChar).takeWhile isGapChar) ∧
      Begins cs (behindIdentifier (encode cs) i)
        ((rest.dropWhile isNameChar).dropWhile isGapChar) := by
  have hwide : ¬ IsWide c := IsWide.not_of (fun _ => IsWide.isNameStart) hc
  have hname := skipName_eq h
  rw [List.takeWhile_cons_of_pos (isNameChar_of_isNameStart hc)] at hname
  have hbehind : Begins cs (i + byteLength (c :: rest.takeWhile isNameChar))
      (rest.dropWhile isNameChar) := by
    apply Begins.append
    rwa [List.cons_append, List.takeWhile_append_dropWhile]
  have hgap : behindIdentifier (encode cs) i = i + byteLength (c :: rest.takeWhile isNameChar ++
      (rest.dropWhile isNameChar).takeWhile isGapChar) := by
    rw [behindIdentifier, hname, skipGap_eq hbehind, byteLength_append, Nat.add_assoc]
  refine ⟨h.at?_of_not_isWide hwide, hname, hgap, ?_⟩
  rw [hgap, byteLength_append, ← Nat.add_assoc]
  apply Begins.append
  rwa [List.takeWhile_append_dropWhile]

private theorem Begins.skipGap {cs rest : List Char} {i : Nat} (h : Begins cs i rest) :
    Begins cs (skipWhile isGapChar (encode cs) i) (rest.dropWhile isGapChar) := by
  rw [skipGap_eq h]
  apply Begins.append
  rwa [List.takeWhile_append_dropWhile]

private theorem qualifiedEnd?_eq {cs rest : List Char} {i : Nat} (h : Begins cs i rest) :
    qualifiedEnd? (encode cs) i = some ((qualified? rest).map fun (text, _) => i + byteLength text) := by
  have hcolon : ¬ IsWide ':' := by decide
  fun_induction qualified? rest generalizing i with
  | case1 =>
    rw [qualifiedEnd?_of_head? h (by simp)]
    rfl
  | case2 c rest hc =>
    rename_i behind hnone
    obtain ⟨hat, hname, hgap, hbegins⟩ := behindIdentifier_eq h hc
    have hcolons := hbegins.startsWith?_eq hcolon hcolon
    rw [hnone, Option.isSome_none] at hcolons
    rw [qualifiedEnd?_of_isNameStart hat hc hcolons, if_neg Bool.false_ne_true, hname]
    rfl
  | case3 c rest hc =>
    rename_i word behind next hnext _ ih
    obtain ⟨hat, hname, hgap, hbegins⟩ := behindIdentifier_eq h hc
    have hcolons := hbegins.startsWith?_eq hcolon hcolon
    rw [hnext, Option.isSome_some] at hcolons
    rw [after?_eq_some_iff.mp hnext] at hbegins
    have hinside : Begins cs (behindIdentifier (encode cs) i + 2) next := hbegins.pair hcolon hcolon
    rw [qualifiedEnd?_of_isNameStart hat hc hcolons, if_pos rfl, ih hinside.skipGap, Option.map_map,
      skipGap_eq hinside, hgap]
    congr 1
    refine Option.map_congr fun _ _ => ?_
    simp only [Function.comp_apply, word, behind, byteLength_append, byteLength_cons,
      byteLength_nil, utf8Size_of_not_isWide hcolon]
    omega
  | case4 c rest hc =>
    rw [qualifiedEnd?_of_head? h (by rintro d ⟨⟩; exact Bool.eq_false_iff.mpr hc)]
    rfl

theorem qualifiedNameEnd?_eq {cs rest : List Char} {i : Nat} (h : Begins cs i rest) :
    qualifiedNameEnd? (encode cs) i =
      some ((qualifiedName? rest).map fun (text, _) => i + byteLength text) := by
  have hcolon : ¬ IsWide ':' := by decide
  have hcolons := h.startsWith?_eq hcolon hcolon
  unfold qualifiedNameEnd? qualifiedName?
  cases hafter : after? [':', ':'] rest with
  | none =>
    rw [hafter, Option.isSome_none] at hcolons
    rw [hcolons]
    exact qualifiedEnd?_eq h
  | some next =>
    rw [hafter, Option.isSome_some] at hcolons
    rw [after?_eq_some_iff.mp hafter] at h
    have hinside : Begins cs (i + 2) next := h.pair hcolon hcolon
    rw [hcolons]
    simp only
    rw [qualifiedEnd?_eq hinside.skipGap, Option.map_map, skipGap_eq hinside]
    congr 1
    refine Option.map_congr fun _ _ => ?_
    simp only [Function.comp_apply, byteLength_append, byteLength_cons, byteLength_nil,
      utf8Size_of_not_isWide hcolon]
    omega

theorem anglesEnd?_of_at? {bytes : List UInt8} {depth parens : Int} {i : Nat} {c : Char}
    (h : at? bytes i = some c) :
    anglesEnd? bytes depth parens i =
      if c = '(' then anglesEnd? bytes depth (parens + 1) (i + 1)
      else if c = ')' then anglesEnd? bytes depth (parens - 1) (i + 1)
      else if c = '<' && parens == 0 then anglesEnd? bytes (depth + 1) parens (i + 1)
      else if c = '>' && parens == 0 then
        if depth = 1 then some (i + 1) else anglesEnd? bytes (depth - 1) parens (i + 1)
      else if c = ';' || c = '{' || c = '}' then none
      else anglesEnd? bytes depth parens (i + 1) := by
  rw [anglesEnd?.eq_def]
  split
  · simp_all
  · rename_i d hd
    obtain rfl := Option.some.inj (h.symm.trans hd)
    rfl

theorem anglesEnd?_eq {cs rest : List Char} {depth parens : Int} {i : Nat} (h : Begins cs i rest) :
    anglesEnd? (encode cs) depth parens i =
      (angles? depth parens rest).map fun (text, _) => i + byteLength text := by
  induction rest generalizing depth parens i with
  | nil =>
    have hnone := h.at?_nil
    rw [anglesEnd?.eq_def]
    split <;> simp_all [angles?]
  | cons c rest ih =>
    have hgo : ∀ depth parens, anglesEnd? (encode cs) depth parens (i + c.utf8Size) =
        ((angles? depth parens rest).map fun (text, rest) => (c :: text, rest)).map
          fun (text, _) => i + byteLength text := by
      intro depth parens
      rw [ih h.cons, Option.map_map]
      exact Option.map_congr fun _ _ => by simp [Nat.add_assoc]
    by_cases hwide : IsWide c
    · have hpass : anglesEnd? (encode cs) depth parens i =
          anglesEnd? (encode cs) depth parens (i + c.utf8Size) := by
        refine h.pass_wide (f := anglesEnd? (encode cs) depth parens) hwide
          (fun j d hd hd' => ?_) (Nat.zero_le _)
        have hne : ∀ {e}, ¬ IsWide e → d ≠ e := hd'.ne
        rw [anglesEnd?_of_at? hd]
        simp (disch := decide) [hne]
      have hne : ∀ {e}, ¬ IsWide e → c ≠ e := hwide.ne
      rw [hpass, hgo, angles?]
      simp (disch := decide) [hne]
    · rw [utf8Size_of_not_isWide hwide] at hgo
      rw [anglesEnd?_of_at? (h.at?_of_not_isWide hwide), angles?]
      simp only [hgo]
      split
      · rfl
      split
      · rfl
      split
      · rfl
      split
      · split
        · simp [utf8Size_of_not_isWide hwide]
        · rfl
      split
      · rfl
      · rfl

end Reflector.Bytes
