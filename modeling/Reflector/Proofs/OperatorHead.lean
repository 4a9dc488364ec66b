import Reflector.Proofs.MemberGrammar
/-!
# Heads that name an operator

The reader refuses an identifier that is `operator` or ends with `::operator`. White space around a
double colon belongs to the identifier, so that one with white space right before `operator` ends in
neither way. It is read as any other name, and the overload is taken for a field or a method.
-/

namespace Reflector

open Text

private theorem NamesOperator.isOperator_iff {blanks name : List Char}
    (h : NamesOperator blanks name) :
    isOperator name = true ↔ blanks = [] := by
  cases h with
  | alone => simp [isOperator]
  | qualified scope hblanks =>
    rw [isOperator, Bool.or_eq_true, beq_iff_eq, List.isSuffixOf_iff_suffix]
    constructor
    · rintro (hword | ⟨front, hfront⟩)
      · have hcolon : ':' ∈ operatorWord := by
          rw [← hword]
          simp
        exact absurd hcolon (by decide)
      · have hword : front ++ [':', ':'] ++ operatorWord =
            scope ++ [':', ':'] ++ blanks ++ operatorWord := by
          simpa using hfront
        have hscope := List.append_cancel_right hword
        -- The double colon in front of the word would be part of the white space.
        by_contra hne
        have hlast := congrArg List.getLast? hscope
        rw [List.getLast?_append_of_ne_nil _ hne, List.getLast?_append] at hlast
        exact absurd (hblanks ':' (List.mem_of_getLast? hlast.symm)) (by decide)
    · rintro rfl
      exact Or.inr ⟨scope, by simp⟩

namespace MemberHead

private theorem read?_of_isOperator {gap name after : List Char} (hg : TokenGap gap)
    (hname : IsQualifiedName name) (hstop : StopsName after) (ho : isOperator name = true)
    (offset : Nat) : read? offset (gap ++ name ++ after) = none := by
  obtain ⟨c, cs, hcons, hc, hgap⟩ := hname.stopsGap after
  have hread := gap?_append hg hgap
  have htoken := token?_of_isQualifiedName hname hstop
  rw [if_pos ho] at htoken
  rw [List.append_assoc]
  rw [hcons] at hread htoken ⊢
  exact read?_of_token?_eq_none offset hread hc htoken

end MemberHead

namespace OperatorHead

variable {cs : List Char} {pos : Nat}

private theorem memberHead?_eq_none (head : OperatorHead cs pos) (h : head.blanks = []) :
    memberHead? cs pos = none := by
  obtain ⟨before, types, front, gap, name, blanks, after, htext, rfl, htypes, hg, hname, hstop, hop⟩ :=
    head
  obtain rfl : blanks = [] := h
  have hsplit : cs = before ++ (front ++ (gap ++ name ++ after)) := by
    simpa using htext
  obtain ⟨placed, hread⟩ := MemberHead.read?_append htypes (byteLength before)
  rw [MemberHead.read?_of_isOperator hg hname hstop (hop.isOperator_iff.mpr rfl)] at hread
  rw [hsplit, memberHead?_append, hread]
  rfl

/-- An identifier that the test does not see is a token like any other. -/
theorem tokenizes_name (head : OperatorHead cs pos) (h : head.blanks ≠ []) :
    Tokenizes head.after (head.types ++ [.name head.name])
      (head.front ++ (head.gap ++ head.name)) := by
  have hunseen : isOperator head.name = false :=
    Bool.eq_false_iff.mpr fun ho => h (head.namesOperator.isOperator_iff.mp ho)
  have hstands : (Token.name head.name).Stands ([] ++ head.after) :=
    ⟨head.isQualifiedName, head.stopsName, isOperator_eq_false_iff.mp hunseen⟩
  apply head.tokenizes.append
  simpa [Token.text] using Tokenizes.cons head.tokenGap hstands .nil

end OperatorHead

/-- No declaration of an operator is recognised where the word stands alone or right behind its double
colon, whatever tokens come before and whatever follows. Behind white space the word is not seen, and
the declaration is recognised like that of any other name. -/
theorem tokenReader_operator {cs : List Char} {pos : Nat} (head : OperatorHead cs pos) :
    (head.blanks = [] →
      tokenReader.fieldStop? cs pos = none ∧ tokenReader.methodStop? cs pos = none) ∧
    (head.blanks ≠ [] → ∀ tokens text gap c rest, head.after = text ++ (gap ++ c :: rest) →
      Tokenizes (gap ++ c :: rest) tokens text → TokenGap gap → c ∈ [';', '=', '{', '('] →
        let all := head.types ++ .name head.name :: tokens
        let stop :=
          byteLength (head.before ++ head.front ++ head.gap ++ head.name ++ text ++ gap ++ [c])
        (tokenReader.fieldStop? cs pos = some stop ↔ DeclaresMember all ∧ c ≠ '(') ∧
          (tokenReader.methodStop? cs pos = some stop ↔ DeclaresMember all ∧ c = '(')) := by
  refine ⟨fun h => ?_, fun h tokens text gap c rest hafter htokens hg hc => ?_⟩
  · simp [tokenReader, head.memberHead?_eq_none h]
  · have hname := head.tokenizes_name h
    rw [hafter] at hname
    have hread := tokenReader_of_tokenizes head.before (hname.append htokens) hg hc
    have htext := head.text_eq
    rw [hafter] at htext
    have hsplit : cs = head.before ++ (head.front ++ (head.gap ++ head.name) ++ text ++
        (gap ++ c :: rest)) := by
      simpa using htext
    simp only [← hsplit, head.pos_eq] at hread
    simpa using hread

/-- The name of an operator of a class, with blanks before the word. -/
def scopedOperator (blanks : List Char) : List Char :=
  "A".toList ++ [':', ':'] ++ blanks ++ operatorWord

def scopedAssignment (blanks : List Char) : List Char :=
  "[[refl]] A&".toList ++ [' '] ++ scopedOperator blanks ++ "=(int);".toList

def scopedAssignmentHead {blanks : List Char} (h : ∀ c ∈ blanks, isGapChar c = true) :
    OperatorHead (scopedAssignment blanks) 0 where
  before := []
  types := [.name ['A'], .sign '&']
  front := "[[refl]] A&".toList
  gap := [' ']
  name := scopedOperator blanks
  blanks := blanks
  after := "=(int);".toList
  text_eq := rfl
  pos_eq := rfl
  tokenizes := by
    have hmark : TokenGap "[[refl]] ".toList :=
      .bracketed ⟨"refl".toList, rfl, by decide⟩ (.blank rfl .nil)
    have hname : IsQualifiedName ['A'] := .relative (.identifier rfl)
    have hstop : ∀ cs, StopsName ('&' :: cs) := stopsName_cons rfl rfl (by decide)
    exact .cons hmark ⟨hname, hstop _, by decide, by decide⟩ (.cons .nil (Or.inr rfl) .nil)
  tokenGap := .blank rfl .nil
  isQualifiedName := by
    have hword : IsQualified operatorWord := .identifier rfl
    have hscope : isIdentifier "A".toList = true := rfl
    have hnone : ∀ c ∈ ([] : List Char), isGapChar c = true := by simp
    exact .relative (.join hscope hnone h hword)
  stopsName := stopsName_cons rfl rfl (by decide) _
  namesOperator := .qualified _ h

private theorem isGapChar_of_mem_blank : ∀ c ∈ [' '], isGapChar c = true :=
  List.forall_mem_singleton.mpr rfl

theorem tokenReader_operator_scopedAssignment :
    (tokenReader.fieldStop? (scopedAssignment []) 0 = none ∧
      tokenReader.methodStop? (scopedAssignment []) 0 = none) ∧
    ∃ stop, tokenReader.fieldStop? (scopedAssignment [' ']) 0 = some stop := by
  have hread := (tokenReader_operator (scopedAssignmentHead isGapChar_of_mem_blank)).2
    (List.cons_ne_nil ' ' []) [] [] [] '=' "(int);".toList rfl .nil .nil (by decide)
  refine ⟨(tokenReader_operator (scopedAssignmentHead (by simp))).1 rfl, ?_⟩
  exact ⟨_, hread.1.mpr ⟨⟨Nat.le_add_left 2 1, _, rfl⟩, by decide⟩⟩

/-- With a blank before the word, the assignment operator is taken for a field. -/
theorem exists_operator_fieldStop? :
    ∃ head : OperatorHead (scopedAssignment [' ']) 0,
      head.name = "A:: operator".toList ∧
        tokenReader.fieldStop? (scopedAssignment [' ']) 0 = some 25 :=
  ⟨scopedAssignmentHead isGapChar_of_mem_blank, rfl, by decide +kernel⟩

end Reflector
