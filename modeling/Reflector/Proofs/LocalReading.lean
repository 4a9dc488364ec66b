import Reflector.Proofs.ByteHead
/-!
# Reading a declaration in place

A declaration is read from its place on, and as far as its terminator. What stands before the place moves
the offsets that are answered and changes nothing else, and what stands behind the terminator of a member
has no say in them: no token and no gap looks past the terminator to tell where it ends.
-/

namespace Reflector

open Text Bytes

/-- What a reader answers at one place of a text. -/
structure DeclBounds where
  fieldStop? : Option Nat
  methodStop? : Option Nat
  nameOffset : Nat
deriving DecidableEq, Repr

def DeclReader.bounds (reader : DeclReader) (cs : List Char) (pos : Nat) : DeclBounds where
  fieldStop? := reader.fieldStop? cs pos
  methodStop? := reader.methodStop? cs pos
  nameOffset := reader.nameOffset cs pos

def DeclBounds.shift (bytes : Nat) (bounds : DeclBounds) : DeclBounds where
  fieldStop? := bounds.fieldStop?.map (bytes + ·)
  methodStop? := bounds.methodStop?.map (bytes + ·)
  nameOffset := bytes + bounds.nameOffset

def Bytes.bounds? (cs : List Char) (pos : Nat) : Option DeclBounds := do
  let fieldStop? ← fieldEnd? cs pos
  let methodStop? ← methodEnd? cs pos
  let nameOffset ← nameStart? cs pos
  return ⟨fieldStop?, methodStop?, nameOffset⟩

/-- Behind a gap, a double colon would begin before the terminator and end before it. -/
private theorem colons_dropWhile_append {c : Char} (hgap : isGapChar c = false) (hcolon : c ≠ ':')
    (front after : List Char) :
    [':', ':'] <+: (front ++ c :: after).dropWhile isGapChar ↔
      [':', ':'] <+: (front ++ [c]).dropWhile isGapChar := by
  induction front with
  | nil => exact iff_of_false (not_colons_dropWhile hgap hcolon after) (not_colons_dropWhile hgap hcolon [])
  | cons d front ih =>
    by_cases hd : isGapChar d = true
    · rwa [List.cons_append, List.cons_append, List.dropWhile_cons_of_pos hd,
        List.dropWhile_cons_of_pos hd]
    · rw [List.cons_append, List.cons_append, List.dropWhile_cons_of_neg hd,
        List.dropWhile_cons_of_neg hd, List.cons_prefix_cons, List.cons_prefix_cons]
      cases front with
      | nil => simp [hcolon.symm]
      | cons e front => simp

private theorem stopsName_append_terminator {c : Char} (hc : isTerminator c = true)
    (front after : List Char) :
    StopsName (front ++ c :: after) ↔ StopsName (front ++ [c]) := by
  have hclass : isGapChar c = false ∧ c ≠ ':' := by
    simp only [isTerminator, Bool.or_eq_true, beq_iff_eq] at hc
    rcases hc with ((rfl | rfl) | rfl) | rfl <;> decide
  have hhead : (front ++ c :: after).head? = (front ++ [c]).head? := by
    rw [List.head?_append, List.head?_append, List.head?_cons, List.head?_cons]
  rw [StopsName, StopsName, hhead, colons_dropWhile_append hclass.1 hclass.2]

private theorem Token.Stands.congr_after {token : Token} {front after after' : List Char} {c : Char}
    (hc : isTerminator c = true) (h : token.Stands (front ++ c :: after)) :
    token.Stands (front ++ c :: after') := by
  cases token with
  | sign _ => exact h
  | angles _ => exact h
  | name text =>
    obtain ⟨hname, hstop, hoperator⟩ := h
    rw [stopsName_append_terminator hc] at hstop
    exact ⟨hname, (stopsName_append_terminator hc front after').mpr hstop, hoperator⟩

/-- Tokens before a terminator stay the same whatever comes behind it. -/
private theorem Tokenizes.congr_after {gap after after' text : List Char} {tokens : List Token}
    {c : Char}
    (hc : isTerminator c = true) (h : Tokenizes (gap ++ c :: after) tokens text) :
    Tokenizes (gap ++ c :: after') tokens text := by
  induction h with
  | nil => exact .nil
  | cons hgap hstands _ ih =>
    rw [← List.append_assoc] at hstands
    apply Tokenizes.cons hgap ?_ ih
    rw [← List.append_assoc]
    exact hstands.congr_after hc

namespace DeclaredMember

variable {cs : List Char} {pos : Nat}

private theorem text_eq_before (member : DeclaredMember cs pos) : cs = member.before ++
    (member.front ++ member.name ++ member.gap ++ member.terminator :: member.after) := by
  simpa only [List.append_assoc] using member.text_eq

private theorem isBoundary (member : DeclaredMember cs pos) : IsBoundary cs pos := by
  rw [← member.pos_eq]
  exact isBoundary_of_append member.text_eq_before

def through (member : DeclaredMember cs pos) : List Char :=
  member.before ++ member.front ++ member.name ++ member.gap ++ [member.terminator]

private theorem through_append_after (member : DeclaredMember cs pos) :
    member.through ++ member.after = cs := by
  rw [through, List.append_assoc, List.singleton_append]
  exact member.text_eq.symm

private theorem isTerminator (member : DeclaredMember cs pos) :
    isTerminator member.terminator = true := by
  simpa [Reflector.isTerminator, or_assoc] using member.terminator_mem

/-- The member with another text behind its terminator. -/
def withAfter (member : DeclaredMember cs pos) (tail : List Char) :
    DeclaredMember (member.through ++ tail) pos where
  __ := member
  after := tail
  text_eq := by rw [through, List.append_assoc, List.singleton_append]
  tokenizes := member.tokenizes.congr_after member.isTerminator

/-- The member with more text in front of its place. -/
def behind (member : DeclaredMember cs pos) (front : List Char) :
    DeclaredMember (front ++ cs) (byteLength front + pos) where
  __ := member
  before := front ++ member.before
  text_eq := by
    conv_lhs => rw [member.text_eq]
    simp only [List.append_assoc]
  pos_eq := by rw [byteLength_append, member.pos_eq]

def bounds (member : DeclaredMember cs pos) : DeclBounds where
  fieldStop? := if member.terminator = '(' then none else some member.stop
  methodStop? := if member.terminator = '(' then some member.stop else none
  nameOffset := member.start

private theorem bounds_eq (member : DeclaredMember cs pos) :
    tokenReader.bounds cs pos = member.bounds := by
  obtain ⟨head, hhead, hdeclared, hterminator, hstop⟩ := member.memberHead?_eq
  by_cases hparen : member.terminator = '('
  · simp [DeclReader.bounds, bounds, tokenReader, hhead, hdeclared, hterminator, hstop, hparen]
  · simp [DeclReader.bounds, bounds, tokenReader, hhead, hdeclared, hterminator, hstop, hparen]

private theorem exists_behind {front : List Char}
    (member : DeclaredMember (front ++ cs) (byteLength front + pos)) :
    Nonempty (DeclaredMember cs pos) := by
  obtain ⟨before, hbefore, hcs⟩ := exists_append_of_byteLength_le member.text_eq_before <| by
    rw [member.pos_eq]
    exact Nat.le_add_right _ _
  have hpos : byteLength before = pos := by
    have hpos := member.pos_eq
    rw [hbefore, byteLength_append] at hpos
    exact Nat.add_left_cancel hpos
  have hcs' : cs = before ++ member.front ++ member.name ++ member.gap ++
      member.terminator :: member.after := by
    simpa only [List.append_assoc] using hcs
  exact ⟨{ member with before, text_eq := hcs', pos_eq := hpos }⟩

private theorem bounds_behind (member : DeclaredMember cs pos) (front : List Char) :
    (member.behind front).bounds = member.bounds.shift (byteLength front) := by
  have hstop : (member.behind front).stop = byteLength front + member.stop := by
    simp only [stop, behind, byteLength_append, Nat.add_assoc]
  have hstart : (member.behind front).start = byteLength front + member.start := by
    simp only [start, behind, byteLength_append, Nat.add_assoc]
  have hterminator : (member.behind front).terminator = member.terminator := rfl
  rw [bounds, bounds, hstop, hstart, hterminator, DeclBounds.shift]
  split <;> rfl

end DeclaredMember

private theorem bounds_of_isEmpty {cs : List Char} {pos : Nat} (h : IsEmpty (DeclaredMember cs pos)) :
    tokenReader.bounds cs pos = ⟨none, none, pos⟩ := by
  simp [DeclReader.bounds, tokenReader, memberHead?_of_isEmpty h]

theorem bounds_append (front cs : List Char) (pos : Nat) :
    tokenReader.bounds (front ++ cs) (byteLength front + pos) =
      (tokenReader.bounds cs pos).shift (byteLength front) := by
  rcases isEmpty_or_nonempty (DeclaredMember cs pos) with hnone | ⟨⟨member⟩⟩
  · have hnone' : IsEmpty (DeclaredMember (front ++ cs) (byteLength front + pos)) :=
      ⟨fun member => not_isEmpty_iff.mpr member.exists_behind hnone⟩
    rw [bounds_of_isEmpty hnone, bounds_of_isEmpty hnone']
    rfl
  · rw [member.bounds_eq, (member.behind front).bounds_eq, member.bounds_behind]

theorem bounds_through_append {cs : List Char} {pos : Nat} (member : DeclaredMember cs pos)
    (tail : List Char) : tokenReader.bounds (member.through ++ tail) pos = tokenReader.bounds cs pos := by
  rw [member.bounds_eq, (member.withAfter tail).bounds_eq]
  rfl

namespace Bytes

private theorem utf8EncodeChar_append_inj {c d : Char} {xs ys : List UInt8}
    (h : String.utf8EncodeChar c ++ xs = String.utf8EncodeChar d ++ ys) : c = d ∧ xs = ys := by
  have hdecode : ∀ (e : Char) (zs : List UInt8),
      ByteArray.utf8DecodeChar? (String.utf8EncodeChar e ++ zs).toByteArray 0 = some e := by
    intro e zs
    rw [List.toByteArray_append]
    exact ByteArray.utf8DecodeChar?_utf8EncodeChar_append
  have hchar : some c = some d := by rw [← hdecode c xs, h, hdecode]
  obtain rfl := Option.some.inj hchar
  exact ⟨rfl, List.append_cancel_left h⟩

private theorem prefix_of_encode_prefix {a cs : List Char} (h : encode a <+: encode cs) :
    a <+: cs := by
  induction a generalizing cs with
  | nil => exact List.nil_prefix
  | cons c a ih =>
    obtain ⟨more, hmore⟩ := h
    cases cs with
    | nil =>
      have hlength := congrArg List.length hmore
      rw [List.length_append, length_encode, length_encode] at hlength
      have := c.utf8Size_pos
      simp at hlength
      omega
    | cons d cs =>
      rw [encode, encode, List.flatMap_cons, List.flatMap_cons, List.append_assoc] at hmore
      obtain ⟨rfl, htail⟩ := utf8EncodeChar_append_inj hmore
      exact List.cons_prefix_cons.mpr ⟨rfl, ih ⟨more, htail⟩⟩

theorem prefix_of_take_encode_eq {cs front rest other : List Char} (hcs : front ++ rest = cs)
    (h : (encode other).take (byteLength front) = (encode cs).take (byteLength front)) :
    front <+: other := by
  apply prefix_of_encode_prefix
  rw [← hcs, encode_append, ← length_encode, List.take_left] at h
  rw [← h]
  exact List.take_prefix _ _

/-- Where no character begins and the text does not end, the byte is one of a wide character. -/
private theorem exists_isWide_of_not_isBoundary {cs : List Char} {pos : Nat}
    (hle : pos ≤ byteLength cs)
    (h : ¬ IsBoundary cs pos) : ∃ d, at? (encode cs) pos = some d ∧ IsWide d := by
  have hlt : pos < (encode cs).length := by
    rw [length_encode]
    apply Nat.lt_of_le_of_ne hle
    intro hend
    rw [hend] at h
    exact h (isBoundary_of_append (List.append_nil cs).symm)
  obtain ⟨d, hd⟩ : ∃ d, at? (encode cs) pos = some d := by
    rw [at?, List.getElem?_eq_getElem hlt]
    exact ⟨_, rfl⟩
  refine ⟨d, hd, ?_⟩
  by_contra hwide
  obtain ⟨rest, before, hcs, hpos⟩ := Begins.of_at? hwide hd
  rw [← hpos] at h
  exact h (isBoundary_of_append hcs)

private theorem declHead?_of_isWide {cs : List Char} {pos : Nat} {d : Char}
    (h : at? (encode cs) pos = some d)
    (hd : IsWide d) : declHead? cs pos = some none := by
  have hne : ∀ {e}, ¬ IsWide e → d ≠ e := hd.ne
  have hgap : skipWhile isGapChar (encode cs) pos = pos := by
    rw [skipWhile_of_at? h, hd.isGapChar, if_neg Bool.false_ne_true]
  have hpair : ∀ {a b : Char}, ¬ IsWide a → startsWith? a b (encode cs) pos = some false := by
    intro a b ha
    rw [startsWith?, if_pos (Nat.le_of_lt (lt_of_at? h)), h]
    simp [hne ha]
  have hskip : skipAttributes? (encode cs) pos = some (some pos) := by
    rw [skipAttributes?, hgap, hpair (by decide)]
  have htoken : tokenEnd? cs pos = some none := by
    rw [tokenEnd?, h]
    simp (disch := decide) [hne, hpair, hd.isNameStart]
  have hopen : ¬ (d = '[' ∧ at? (encode cs) (pos + 1) = some '[') := fun ho => hne (by decide) ho.1
  have hread : headFrom? cs 0 none pos = some none := by
    rw [headFrom?_token (by rw [hgap]; exact h) hd.isTerminator (by rw [hgap]; exact hopen), hgap, htoken]
    rfl
  rw [declHead?, hskip]
  exact hread

/-- At every offset of a text, inside a character too, the bounds are read byte by byte as they are on the
text. -/
theorem bounds?_eq {cs : List Char} {pos : Nat} (hle : pos ≤ byteLength cs) :
    bounds? cs pos = some (tokenReader.bounds cs pos) := by
  by_cases h : IsBoundary cs pos
  · obtain ⟨hfield, hmethod, hname⟩ := declaration_eq h
    rw [bounds?, hfield, hmethod, hname]
    rfl
  · have hnone : IsEmpty (DeclaredMember cs pos) := ⟨fun member => h member.isBoundary⟩
    obtain ⟨d, hd, hwide⟩ := exists_isWide_of_not_isBoundary hle h
    rw [bounds_of_isEmpty hnone]
    simp [bounds?, fieldEnd?, methodEnd?, nameStart?, declHead?_of_isWide hd hwide]

end Bytes

/-- Declarations are read in place. Text in front of a place only moves the answers there. Where a field
or a method ends, every text with the same bytes as far as that end has the same answers. And the
answers at an offset of a text, inside a character too, are those that are read byte by byte. -/
theorem tokenReader_local (cs : List Char) (pos : Nat) :
    (∀ front, tokenReader.bounds (front ++ cs) (byteLength front + pos) =
      (tokenReader.bounds cs pos).shift (byteLength front)) ∧
    (∀ kind : MemberKind, ∀ stop, kind.end? tokenReader cs pos = some stop →
      ∀ other, (encode other).take stop = (encode cs).take stop →
        tokenReader.bounds other pos = tokenReader.bounds cs pos) ∧
    (pos ≤ byteLength cs → bounds? cs pos = some (tokenReader.bounds cs pos)) := by
  refine ⟨fun front => bounds_append front cs pos, ?_, bounds?_eq⟩
  intro kind stop hstop other hsame
  obtain ⟨member, -, hend⟩ := MemberKind.end?_eq_some_iff.mp hstop
  have hthrough : stop = byteLength member.through := hend.symm
  rw [hthrough] at hsame
  obtain ⟨tail, htail⟩ := prefix_of_take_encode_eq member.through_append_after hsame
  rw [← htail]
  exact bounds_through_append member tail

/-- A field through its terminator. A wide character stands in front of its mark and another in an
attribute behind its name. -/
def scopedField : List Char :=
  "\u00e9 [[r]] A<(>)>::B *x [[\u00e9]]=".toList

theorem tokenReader_local_scopedField :
    MemberKind.field.end? tokenReader (scopedField ++ " 1;".toList) 3 = some 29 ∧
      (encode (scopedField ++ "::]]".toList)).take 29 = (encode (scopedField ++ " 1;".toList)).take 29 ∧
      tokenReader.bounds (scopedField ++ "::]]".toList) 3 = ⟨some 29, none, 20⟩ ∧
      tokenReader.bounds ([':'] ++ (scopedField ++ " 1;".toList)) 4 = ⟨some 30, none, 21⟩ ∧
      bounds? (scopedField ++ " 1;".toList) 1 = some ⟨none, none, 1⟩ := by
  have hfield : MemberKind.field.end? tokenReader (scopedField ++ " 1;".toList) 3 = some 29 := by
    decide +kernel
  have hsame : (encode (scopedField ++ "::]]".toList)).take 29 =
      (encode (scopedField ++ " 1;".toList)).take 29 := by decide +kernel
  have hbounds : tokenReader.bounds (scopedField ++ " 1;".toList) 3 = ⟨some 29, none, 20⟩ := by
    decide +kernel
  obtain ⟨hfront, hbehind, -⟩ := tokenReader_local (scopedField ++ " 1;".toList) 3
  obtain ⟨-, -, hinside⟩ := tokenReader_local (scopedField ++ " 1;".toList) 1
  refine ⟨hfield, hsame, (hbehind .field 29 hfield _ hsame).trans hbounds, ?_, ?_⟩
  · have hmoved := hfront [':']
    rw [hbounds] at hmoved
    exact hmoved
  · rw [hinside (by decide +kernel)]
    decide +kernel

end Reflector
