import Mathlib.Data.Option.Basic
import Reflector.Proofs.Token
import Reflector.Proofs.TokenGap
/-!
# The reader and the grammar of members

A head that is read falls into the tokens of the grammar, and a text of the grammar is read as a head.
The last token ends where the tokens of the text end, which places the declared name.
-/

namespace Reflector

open Text

private theorem stopsGap_of_begins {c : Char}
    (h : c = '*' ∨ c = '&' ∨ c = '<' ∨ c = ':' ∨ isNameStart c = true) (cs : List Char) :
    isTerminator c = false ∧ StopsGap (c :: cs) := by
  have hclass : isTerminator c = false ∧ isGapChar c = false ∧ c ≠ '[' := by
    rcases h with rfl | rfl | rfl | rfl | hc
    · decide
    · decide
    · decide
    · decide
    · have hother : ∀ d, isNameChar d = false → c ≠ d :=
        fun d => ne_of_class (isNameChar_of_isNameStart hc)
      refine ⟨?_, isGapChar_of_isNameStart hc, hother '[' (by decide)⟩
      simp (disch := decide) [isTerminator, hother]
  refine ⟨hclass.1, ?_, ?_⟩
  · intro d hd
    obtain rfl : c = d := Option.some.inj hd
    exact hclass.2.1
  · intro hp
    exact hclass.2.2 (List.cons_prefix_cons.mp hp).1.symm

theorem IsQualifiedName.stopsGap {name : List Char} (h : IsQualifiedName name)
    (rest : List Char) :
    ∃ c cs, name ++ rest = c :: cs ∧ isTerminator c = false ∧ StopsGap (name ++ rest) := by
  obtain ⟨c, cs, rfl, hc⟩ := h.exists_cons
  exact ⟨c, cs ++ rest, rfl, stopsGap_of_begins (by rcases hc with hc | hc <;> simp [hc]) _⟩

private theorem Token.Stands.stopsGap {token : Token} {after : List Char} (h : token.Stands after)
    (rest : List Char) :
    ∃ c cs, token.text ++ rest = c :: cs ∧ isTerminator c = false ∧ StopsGap (token.text ++ rest) := by
  cases token with
  | sign c => exact ⟨c, rest, rfl, stopsGap_of_begins (by rcases h with h | h <;> simp [h]) rest⟩
  | angles text =>
    obtain ⟨inside, rfl⟩ := IsAngleList.bracketed h
    exact ⟨'<', inside ++ ['>'] ++ rest, rfl, stopsGap_of_begins (by simp) _⟩
  | name text => exact IsQualifiedName.stopsGap h.1 rest

theorem Tokenizes.ends {after text : List Char} {tokens : List Token} {last : Token}
    (h : Tokenizes after (tokens ++ [last]) text) : ∃ front, text = front ++ last.text := by
  induction tokens generalizing text with
  | nil =>
    cases h with
    | cons _ _ hmore =>
      cases hmore
      exact ⟨_, List.append_nil _⟩
  | cons token tokens ih =>
    cases h with
    | cons _ _ hmore =>
      obtain ⟨front, rfl⟩ := ih hmore
      exact ⟨_, (List.append_assoc _ _ _).symm⟩

theorem Tokenizes.append {after text text' : List Char} {tokens tokens' : List Token}
    (h : Tokenizes (text' ++ after) tokens text) (h' : Tokenizes after tokens' text') :
    Tokenizes after (tokens ++ tokens') (text ++ text') := by
  induction h with
  | nil => exact h'
  | @cons gap text token tokens hgap hstands _ ih =>
    rw [← List.append_assoc] at hstands
    rw [List.append_assoc]
    exact .cons hgap hstands ih

private theorem stopsGap_of_isTerminator {c : Char} (h : isTerminator c = true) (rest : List Char) :
    StopsGap (c :: rest) := by
  simp only [isTerminator, Bool.or_eq_true, beq_iff_eq] at h
  refine ⟨?_, ?_⟩
  · intro d hd
    obtain rfl : c = d := Option.some.inj hd
    rcases h with ((rfl | rfl) | rfl) | rfl <;> decide
  · intro hp
    have hc := (List.cons_prefix_cons.mp hp).1
    rcases h with ((rfl | rfl) | rfl) | rfl <;> exact absurd hc (by decide)

/-- There are at least two tokens, and the last one is an identifier. -/
def DeclaresMember (tokens : List Token) : Prop :=
  2 ≤ tokens.length ∧ ∃ name, tokens.getLast? = some (.name name)

namespace MemberHead

/-- A head read from `offset` on has taken its tokens up to the end of `text`, the gap and its
terminator. -/
structure Takes (offset : Nat) (text gap after : List Char) (head : MemberHead) : Prop where
  tokenizes : Tokenizes (gap ++ head.terminator :: after) (head.tokens.map (·.2)) text
  tokenGap : TokenGap gap
  isTerminator : isTerminator head.terminator = true
  stop : offset + byteLength (text ++ gap ++ [head.terminator]) = head.stop
  last : ∀ start token, head.tokens.getLast? = some (start, token) →
    start + byteLength token.text = offset + byteLength text

variable {offset : Nat} {text gap after : List Char} {c : Char} {head : MemberHead}

private theorem read?_of_terminator {cs rest : List Char} (offset : Nat)
    (hg : gap? cs = some (gap, c :: rest)) (hc : Reflector.isTerminator c = true) :
    read? offset cs = some ⟨[], c, offset + byteLength gap + c.utf8Size⟩ := by
  rw [read?]
  split
  · rename_i heq
    rw [hg] at heq
    contradiction
  · rename_i heq
    rw [hg] at heq
    obtain ⟨rfl, rfl⟩ := Prod.mk.inj (Option.some.inj heq)
    simp only [List.head?_cons, if_pos hc]

private theorem read?_of_token {cs rest : List Char} {token : Token}
    (hg : gap? cs = some (gap, c :: rest)) (hc : Reflector.isTerminator c = false)
    (ht : token? (c :: rest) = some (token, after)) :
    read? offset cs = (read? (offset + byteLength gap + byteLength token.text) after).map
      fun head => { head with tokens := (offset + byteLength gap, token) :: head.tokens } := by
  rw [read?]
  split
  · rename_i heq
    rw [hg] at heq
    contradiction
  · rename_i heq
    rw [hg] at heq
    obtain ⟨rfl, rfl⟩ := Prod.mk.inj (Option.some.inj heq)
    simp only [List.head?_cons, hc, Bool.false_eq_true, if_false]
    split
    · rename_i heq
      rw [ht] at heq
      contradiction
    · rename_i heq
      rw [ht] at heq
      obtain ⟨rfl, rfl⟩ := Prod.mk.inj (Option.some.inj heq)
      rfl

theorem read?_of_token?_eq_none {cs rest : List Char} (offset : Nat)
    (hg : gap? cs = some (gap, c :: rest)) (hc : Reflector.isTerminator c = false)
    (ht : token? (c :: rest) = none) : read? offset cs = none := by
  rw [read?]
  split
  · rfl
  · rename_i heq
    rw [hg] at heq
    obtain ⟨rfl, rfl⟩ := Prod.mk.inj (Option.some.inj heq)
    simp only [List.head?_cons, hc, Bool.false_eq_true, if_false]
    split
    · rfl
    · rename_i heq
      rw [ht] at heq
      contradiction

private theorem read?_of_stands {lead : List Char} {token : Token} (hlead : TokenGap lead)
    (h : token.Stands after) (offset : Nat) :
    read? offset (lead ++ token.text ++ after) =
      (read? (offset + byteLength lead + byteLength token.text) after).map
        fun head => { head with tokens := (offset + byteLength lead, token) :: head.tokens } := by
  obtain ⟨d, ds, hcons, hd, hstop⟩ := h.stopsGap after
  have hgap := gap?_append hlead hstop
  have htoken := token?_of_stands h
  rw [List.append_assoc]
  rw [hcons] at hgap htoken ⊢
  exact read?_of_token hgap hd htoken

theorem read?_append {tokens : List Token}
    (h : Tokenizes after tokens text) (offset : Nat) :
    ∃ placed : List (Nat × Token), read? offset (text ++ after) =
      (read? (offset + byteLength text) after).map
        fun head => { head with tokens := placed ++ head.tokens } := by
  induction h generalizing offset with
  | nil => exact ⟨[], by simp⟩
  | @cons lead text token tokens hlead hstands _ ih =>
    obtain ⟨placed, hread⟩ := ih (offset + byteLength lead + byteLength token.text)
    refine ⟨(offset + byteLength lead, token) :: placed, ?_⟩
    rw [List.append_assoc, read?_of_stands hlead hstands, hread, Option.map_map]
    simp only [Function.comp_def, List.cons_append, byteLength_append, Nat.add_assoc]

private theorem takes_nil (offset : Nat) (hg : TokenGap gap) (hc : Reflector.isTerminator c = true)
    (after : List Char) :
    Takes offset [] gap after ⟨[], c, offset + byteLength (gap ++ [c])⟩ where
  tokenizes := .nil
  tokenGap := hg
  isTerminator := hc
  stop := rfl
  last := by simp

theorem Takes.cons {lead : List Char} {token : Token} (hlead : TokenGap lead)
    (ht : token.Stands (text ++ (gap ++ head.terminator :: after)))
    (h : Takes (offset + byteLength lead + byteLength token.text) text gap after head) :
    Takes offset (lead ++ token.text ++ text) gap after
      { head with tokens := (offset + byteLength lead, token) :: head.tokens } where
  tokenizes := .cons hlead ht h.tokenizes
  tokenGap := h.tokenGap
  isTerminator := h.isTerminator
  stop := by
    rw [← h.stop]
    simp only [byteLength_append]
    omega
  last := by
    intro start last hlast
    rw [List.getLast?_cons] at hlast
    cases hmore : head.tokens.getLast? with
    | none =>
      have htext : text = [] := by
        have htokens := h.tokenizes
        rw [List.getLast?_eq_none_iff.mp hmore] at htokens
        cases htokens
        rfl
      rw [hmore] at hlast
      obtain ⟨rfl, rfl⟩ := Prod.mk.inj (Option.some.inj hlast)
      simp [htext, Nat.add_assoc]
    | some x =>
      rw [hmore] at hlast
      obtain rfl : x = (start, last) := Option.some.inj hlast
      rw [h.last start last hmore]
      simp only [byteLength_append]
      omega

theorem takes_of_read? {cs : List Char} (h : read? offset cs = some head) :
    ∃ text gap after, cs = text ++ (gap ++ head.terminator :: after) ∧
      Takes offset text gap after head := by
  fun_induction read? offset cs generalizing head with
  | case1 => contradiction
  | case2 => contradiction
  | case3 offset cs gap rest hgap start c hhead =>
    rename_i hterm
    obtain rfl := Option.some.inj h
    obtain ⟨rfl, hg, -⟩ := gap?_eq_some_iff.mp hgap
    obtain ⟨after, rfl⟩ := List.head?_eq_some_iff.mp hhead
    refine ⟨[], gap, after, rfl, ?_⟩
    have hstop : offset + byteLength (gap ++ [c]) = start + c.utf8Size := by
      rw [byteLength_append]
      simp only [start, byteLength_cons, byteLength_nil]
      omega
    rw [← hstop]
    exact takes_nil offset hg hterm after
  | case4 => contradiction
  | case5 offset cs lead rest hgap start c hhead =>
    rename_i hterm token after ht _ ih
    obtain ⟨head', hread, rfl⟩ := Option.map_eq_some_iff.mp h
    obtain ⟨text, gap, later, rfl, htakes⟩ := ih hread
    obtain ⟨rfl, hlead, -⟩ := gap?_eq_some_iff.mp hgap
    obtain ⟨rfl, hstands⟩ := token?_eq_some_iff.mp ht
    refine ⟨lead ++ token.text ++ text, gap, later, by simp, ?_⟩
    exact htakes.cons hlead hstands

private theorem read?_of_tokenizes {tokens : List Token} (hg : TokenGap gap)
    (hc : Reflector.isTerminator c = true) (h : Tokenizes (gap ++ c :: after) tokens text)
    (offset : Nat) :
    ∃ head, read? offset (text ++ (gap ++ c :: after)) = some head ∧ head.terminator = c ∧
      head.tokens.map (·.2) = tokens ∧ Takes offset text gap after head := by
  induction h generalizing offset with
  | nil =>
    have hread := read?_of_terminator offset (gap?_append hg (stopsGap_of_isTerminator hc after)) hc
    refine ⟨_, hread, rfl, rfl, ?_⟩
    have htakes := takes_nil offset hg hc after
    rwa [byteLength_append, ← Nat.add_assoc] at htakes
  | @cons lead text token tokens hlead hstands _ ih =>
    obtain ⟨head, hread, hterm, htokens, htakes⟩ :=
      ih (offset + byteLength lead + byteLength token.text)
    subst hterm
    refine ⟨{ head with tokens := (offset + byteLength lead, token) :: head.tokens }, ?_, rfl, ?_,
      htakes.cons hlead hstands⟩
    · rw [List.append_assoc, read?_of_stands hlead hstands, hread]
      rfl
    · rw [List.map_cons, htokens]

private theorem declared?_eq_some_iff {start : Nat} {token : Token} :
    head.declared? = some (start, token) ↔
      head.tokens.getLast? = some (start, token) ∧ 2 ≤ head.tokens.length ∧
        ∃ name, token = .name name := by
  have hname : token.isName = true ↔ ∃ name, token = .name name := by
    cases token <;> simp [Token.isName]
  rw [declared?, Option.filter_eq_some_iff, Bool.and_eq_true, decide_eq_true_eq, hname]

private theorem isSome_declared?_iff :
    head.declared?.isSome = true ↔ DeclaresMember (head.tokens.map (·.2)) := by
  rw [Option.isSome_iff_exists, DeclaresMember, List.length_map, List.getLast?_map]
  simp only [Option.map_eq_some_iff, Prod.exists, declared?_eq_some_iff]
  constructor
  · rintro ⟨start, _, hlast, hlength, name, rfl⟩
    exact ⟨hlength, name, start, _, hlast, rfl⟩
  · rintro ⟨hlength, name, start, _, hlast, rfl⟩
    exact ⟨start, _, hlast, hlength, name, rfl⟩

end MemberHead

theorem memberHead?_append (before rest : List Char) :
    memberHead? (before ++ rest) (byteLength before) =
      (MemberHead.read? (byteLength before) rest).filter (·.declared?.isSome) := by
  have hsplit : splitAtByte? (byteLength before) (before ++ rest) = some (before, rest) :=
    splitAtByte?_eq_some_iff.mpr ⟨rfl, rfl⟩
  have hbind : memberHead? (before ++ rest) (byteLength before) =
      (MemberHead.read? (byteLength before) rest).bind fun head =>
        (guard (head.declared?.isSome = true) : Option Unit).bind fun _ => some head := by
    rw [memberHead?, hsplit]
    rfl
  rw [hbind]
  cases MemberHead.read? (byteLength before) rest with
  | none => rfl
  | some head =>
    rw [Option.bind_some, Option.filter_some]
    cases head.declared?.isSome <;> rfl

theorem memberHead?_eq_some_iff {cs : List Char} {pos : Nat} {head : MemberHead} :
    memberHead? cs pos = some head ↔
      ∃ before rest, cs = before ++ rest ∧ byteLength before = pos ∧
        MemberHead.read? pos rest = some head ∧ head.declared?.isSome = true := by
  simp only [memberHead?, bind, Option.bind_eq_some_iff, pure, Option.guard_eq_some', Prod.exists,
    Option.some.injEq]
  constructor
  · rintro ⟨before, rest, hsplit, _, hread, _, hsome, rfl⟩
    obtain ⟨hcs, hpos⟩ := splitAtByte?_eq_some_iff.mp hsplit
    exact ⟨before, rest, hcs, hpos, hread, hsome⟩
  · rintro ⟨before, rest, hcs, hpos, hread, hsome⟩
    exact ⟨before, rest, splitAtByte?_eq_some_iff.mpr ⟨hcs, hpos⟩, head, hread, (), hsome, rfl⟩

private theorem isTerminator_iff {c : Char} :
    isTerminator c = true ↔ c ∈ [';', '=', '{', '('] := by
  simp [isTerminator, or_assoc]

/-- Tokens up to a terminator are recognised if they declare a member, as a method before an opening
parenthesis and as a field otherwise. -/
theorem tokenReader_of_tokenizes (before : List Char) {text gap after : List Char}
    {tokens : List Token} {c : Char} (h : Tokenizes (gap ++ c :: after) tokens text) (hg : TokenGap gap)
    (hc : c ∈ [';', '=', '{', '(']) :
    let cs := before ++ (text ++ (gap ++ c :: after))
    let stop := byteLength (before ++ text ++ gap ++ [c])
    (tokenReader.fieldStop? cs (byteLength before) = some stop ↔
        DeclaresMember tokens ∧ c ≠ '(') ∧
      (tokenReader.methodStop? cs (byteLength before) = some stop ↔
        DeclaresMember tokens ∧ c = '(') := by
  obtain ⟨head, hread, rfl, rfl, htakes⟩ :=
    MemberHead.read?_of_tokenizes hg (isTerminator_iff.mpr hc) h (byteLength before)
  have hstop : head.stop = byteLength (before ++ text ++ gap ++ [head.terminator]) := by
    rw [← htakes.stop]
    simp only [byteLength_append]
    omega
  rw [← hstop]
  simp only [tokenReader, memberHead?_append, hread]
  simp [Option.filter_eq_some_iff, MemberHead.isSome_declared?_iff]

theorem DeclaredMember.memberHead?_eq {cs : List Char} {pos : Nat}
    (member : DeclaredMember cs pos) :
    ∃ head, memberHead? cs pos = some head ∧
      head.declared? = some (member.start, .name member.name) ∧
      head.terminator = member.terminator ∧ head.stop = member.stop := by
  obtain ⟨before, types, front, name, gap, c, after, rfl, rfl, hne, htokens, hg, hc⟩ := member
  obtain ⟨head, hread, rfl, hmap, htakes⟩ :=
    MemberHead.read?_of_tokenizes hg (isTerminator_iff.mpr hc) htokens (byteLength before)
  have hlength : 2 ≤ head.tokens.length := by
    have hsize := congrArg List.length hmap
    have hpos := List.length_pos_iff.mpr hne
    simp only [List.length_map, List.length_append, List.length_singleton] at hsize
    omega
  have hlast : ∃ start, head.tokens.getLast? = some (start, .name name) := by
    have hend := congrArg List.getLast? hmap
    rw [List.getLast?_map, List.getLast?_concat, Option.map_eq_some_iff] at hend
    obtain ⟨⟨start, token⟩, hlast, rfl⟩ := hend
    exact ⟨start, hlast⟩
  obtain ⟨start, hlast⟩ := hlast
  have hstart : start = byteLength (before ++ front) := by
    have hend := htakes.last start _ hlast
    simp only [Token.text, byteLength_append] at hend ⊢
    omega
  have hdeclared : head.declared? = some (byteLength (before ++ front), .name name) :=
    MemberHead.declared?_eq_some_iff.mpr ⟨hstart ▸ hlast, hlength, name, rfl⟩
  refine ⟨head, ?_, hdeclared, rfl, ?_⟩
  · refine memberHead?_eq_some_iff.mpr ⟨before, _, ?_, rfl, hread, by simp [hdeclared]⟩
    simp
  · rw [← htakes.stop]
    simp only [DeclaredMember.stop, byteLength_append]
    omega

/-- There is at most one member at a place: its terminator is the one that the reader finds. -/
theorem DeclaredMember.terminator_unique {cs : List Char} {pos : Nat}
    (member other : DeclaredMember cs pos) : member.terminator = other.terminator := by
  obtain ⟨head, hhead, -, hterm, -⟩ := member.memberHead?_eq
  obtain ⟨head', hhead', -, hterm', -⟩ := other.memberHead?_eq
  obtain rfl := Option.some.inj (hhead.symm.trans hhead')
  exact hterm.symm.trans hterm'

private theorem exists_declaredMember {cs : List Char} {pos : Nat} {head : MemberHead}
    (h : memberHead? cs pos = some head) :
    ∃ member : DeclaredMember cs pos,
      head.declared? = some (member.start, .name member.name) ∧
      head.terminator = member.terminator ∧ head.stop = member.stop := by
  obtain ⟨before, rest, rfl, rfl, hread, hsome⟩ := memberHead?_eq_some_iff.mp h
  obtain ⟨⟨start, token⟩, hdeclared⟩ := Option.isSome_iff_exists.mp hsome
  obtain ⟨hlast, hlength, name, rfl⟩ := MemberHead.declared?_eq_some_iff.mp hdeclared
  obtain ⟨text, gap, after, rfl, htakes⟩ := MemberHead.takes_of_read? hread
  obtain ⟨types, hinit⟩ := List.getLast?_eq_some_iff.mp hlast
  have htokens := htakes.tokenizes
  rw [hinit, List.map_append, List.map_singleton] at htokens
  obtain ⟨front, rfl⟩ := htokens.ends
  have htypes : types.map (·.2) ≠ [] := by
    intro hnil
    rw [hinit, List.map_eq_nil_iff.mp hnil] at hlength
    simp at hlength
  have hstart : start = byteLength (before ++ front) := by
    have hend := htakes.last start _ hlast
    simp only [Token.text, byteLength_append] at hend ⊢
    omega
  have hstop : head.stop =
      byteLength (before ++ front ++ name ++ gap ++ [head.terminator]) := by
    rw [← htakes.stop]
    simp only [Token.text, byteLength_append]
    omega
  refine ⟨⟨before, types.map (·.2), front, name, gap, head.terminator, after, by simp [Token.text],
    rfl, htypes, htokens, htakes.tokenGap, isTerminator_iff.mp htakes.isTerminator⟩, ?_, rfl, hstop⟩
  rw [hdeclared, hstart]
  rfl

theorem fieldStop?_eq_some_iff {cs : List Char} {pos stop : Nat} :
    tokenReader.fieldStop? cs pos = some stop ↔
      ∃ member : DeclaredMember cs pos, member.terminator ∈ [';', '=', '{'] ∧
        member.stop = stop := by
  simp only [tokenReader, Option.map_eq_some_iff, Option.filter_eq_some_iff, bne_iff_ne]
  constructor
  · rintro ⟨head, ⟨hhead, hfield⟩, rfl⟩
    obtain ⟨member, -, hterm, hstop⟩ := exists_declaredMember hhead
    refine ⟨member, ?_, hstop.symm⟩
    rw [hterm] at hfield
    simpa [hfield] using member.terminator_mem
  · rintro ⟨member, hfield, rfl⟩
    obtain ⟨head, hhead, -, hterm, hstop⟩ := member.memberHead?_eq
    refine ⟨head, ⟨hhead, ?_⟩, hstop⟩
    intro hparen
    rw [← hterm, hparen] at hfield
    exact absurd hfield (by decide)

theorem methodStop?_eq_some_iff {cs : List Char} {pos stop : Nat} :
    tokenReader.methodStop? cs pos = some stop ↔
      ∃ member : DeclaredMember cs pos, member.terminator = '(' ∧ member.stop = stop := by
  simp only [tokenReader, Option.map_eq_some_iff, Option.filter_eq_some_iff, beq_iff_eq]
  constructor
  · rintro ⟨head, ⟨hhead, hmethod⟩, rfl⟩
    obtain ⟨member, -, hterm, hstop⟩ := exists_declaredMember hhead
    exact ⟨member, hterm ▸ hmethod, hstop.symm⟩
  · rintro ⟨member, hmethod, rfl⟩
    obtain ⟨head, hhead, -, hterm, hstop⟩ := member.memberHead?_eq
    exact ⟨head, ⟨hhead, hterm.trans hmethod⟩, hstop⟩

theorem nameOffset_of_declaredMember {cs : List Char} {pos : Nat} (member : DeclaredMember cs pos) :
    tokenReader.nameOffset cs pos = member.start := by
  obtain ⟨head, hhead, hdeclared, -, -⟩ := member.memberHead?_eq
  simp only [tokenReader, hhead, Option.bind_some, hdeclared, Option.map_some, Option.getD_some]

theorem memberHead?_of_isEmpty {cs : List Char} {pos : Nat} (h : IsEmpty (DeclaredMember cs pos)) :
    memberHead? cs pos = none := by
  rw [Option.eq_none_iff_forall_ne_some]
  intro head hhead
  obtain ⟨member, -⟩ := exists_declaredMember hhead
  exact h.false member

theorem nameOffset_of_isEmpty {cs : List Char} {pos : Nat} (h : IsEmpty (DeclaredMember cs pos)) :
    tokenReader.nameOffset cs pos = pos := by
  simp only [tokenReader, memberHead?_of_isEmpty h, Option.bind_none, Option.map_none,
    Option.getD_none]

/-- The reader accepts exactly the grammar: a field is a member that ends with a semicolon, an equals
sign or an opening brace, and a method one that ends with an opening parenthesis. -/
theorem tokenReader_spec (cs : List Char) (pos : Nat) :
    (∀ stop, tokenReader.fieldStop? cs pos = some stop ↔
        ∃ member : DeclaredMember cs pos, member.terminator ∈ [';', '=', '{'] ∧
          member.stop = stop) ∧
      (∀ stop, tokenReader.methodStop? cs pos = some stop ↔
        ∃ member : DeclaredMember cs pos, member.terminator = '(' ∧ member.stop = stop) ∧
      (∀ member : DeclaredMember cs pos, tokenReader.nameOffset cs pos = member.start) ∧
      (IsEmpty (DeclaredMember cs pos) → tokenReader.nameOffset cs pos = pos) :=
  ⟨fun _ => fieldStop?_eq_some_iff, fun _ => methodStop?_eq_some_iff,
    nameOffset_of_declaredMember, nameOffset_of_isEmpty⟩

end Reflector
