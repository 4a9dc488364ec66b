import Reflector.Text.Blank
import Reflector.Text.Pattern
import Reflector.Text.Word
/-!
# Tokens of a declaration

The words of a declaration as far as its terminator: pointer and reference signs, template argument
lists and qualified identifiers, with gaps of white space and attributes between them. Every reader
answers the text it read and the rest, or `none` where the text has no such form.
-/

namespace Reflector

open Text

/-- The characters through the next two closing brackets, and the text after them. -/
def attributeEnd? : List Char → Option (List Char × List Char)
  | [] => none
  | ']' :: ']' :: rest => some ([']', ']'], rest)
  | c :: cs => (attributeEnd? cs).map fun (text, rest) => (c :: text, rest)

theorem attributeEnd?_sound {cs text rest : List Char}
    (h : attributeEnd? cs = some (text, rest)) : cs = text ++ rest := by
  fun_induction attributeEnd? cs generalizing text rest with
  | case1 => contradiction
  | case2 =>
    simp only [Option.some.injEq, Prod.mk.injEq] at h
    simp [← h.1, h.2]
  | case3 c cs _ ih =>
    obtain ⟨⟨t, r⟩, ht, he⟩ := Option.map_eq_some_iff.1 h
    simp only [Prod.mk.injEq] at he
    obtain ⟨rfl, rfl⟩ := he
    simp [ih ht]

theorem length_attributeEnd?_lt {cs text rest : List Char}
    (h : attributeEnd? cs = some (text, rest)) : rest.length < ('[' :: '[' :: cs).length := by
  rw [attributeEnd?_sound h]
  simp only [List.length_cons, List.length_append]
  omega

/-- Reads the white space and the attributes at the head of a text, as many as there are. There is
no gap if an attribute stays open. -/
def gap? (cs : List Char) : Option (List Char × List Char) :=
  match cs with
  | '[' :: '[' :: inside =>
    match h : attributeEnd? inside with
    | none => none
    | some (text, rest) =>
      have := length_attributeEnd?_lt h
      (gap? rest).map fun (more, rest) => ('[' :: '[' :: text ++ more, rest)
  | c :: cs =>
    if isGapChar c then (gap? cs).map fun (more, rest) => (c :: more, rest)
    else some ([], c :: cs)
  | [] => some ([], [])
termination_by cs.length
decreasing_by
  · exact this
  · exact Nat.lt_succ_self _

theorem gap?_sound {cs text rest : List Char} (h : gap? cs = some (text, rest)) :
    cs = text ++ rest := by
  fun_induction gap? cs generalizing text rest with
  | case1 => simp_all
  | case2 inside t r ha _ ih =>
    obtain ⟨⟨t', r'⟩, ht, he⟩ := Option.map_eq_some_iff.1 h
    simp only [Prod.mk.injEq] at he
    obtain ⟨rfl, rfl⟩ := he
    simp [attributeEnd?_sound ha, ih ht]
  | case3 c cs _ _ ih =>
    obtain ⟨⟨t', r'⟩, ht, he⟩ := Option.map_eq_some_iff.1 h
    simp only [Prod.mk.injEq] at he
    obtain ⟨rfl, rfl⟩ := he
    simp [ih ht]
  | case4 => simp_all
  | case5 => simp_all

/-- Reads a template argument list through the bracket that closes it. Brackets inside parentheses
do not count, and the list is broken off by a semicolon or a brace. In 32 bits the counts are the same
for fewer than 2^31 brackets and parentheses. -/
def angles? (depth parens : Int) : List Char → Option (List Char × List Char)
  | [] => none
  | c :: cs =>
    let go := fun depth parens => (angles? depth parens cs).map fun (t, rest) => (c :: t, rest)
    if c = '(' then go depth (parens + 1)
    else if c = ')' then go depth (parens - 1)
    else if c = '<' && parens == 0 then go (depth + 1) parens
    else if c = '>' && parens == 0 then
      if depth = 1 then some ([c], cs) else go (depth - 1) parens
    else if c = ';' || c = '{' || c = '}' then none
    else go depth parens

theorem angles?_sound {depth parens : Int} {cs text rest : List Char}
    (h : angles? depth parens cs = some (text, rest)) : text ≠ [] ∧ cs = text ++ rest := by
  induction cs generalizing depth parens text rest with
  | nil => simp [angles?] at h
  | cons c cs ih =>
    have step : ∀ {d p : Int},
        (angles? d p cs).map (fun (t, rest) => (c :: t, rest)) = some (text, rest) →
          text ≠ [] ∧ c :: cs = text ++ rest := by
      intro d p h
      obtain ⟨⟨t, r⟩, ht, he⟩ := Option.map_eq_some_iff.1 h
      simp only [Prod.mk.injEq] at he
      obtain ⟨rfl, rfl⟩ := he
      exact ⟨by simp, by rw [(ih ht).2]; rfl⟩
    simp only [angles?] at h
    split at h
    · exact step h
    split at h
    · exact step h
    split at h
    · exact step h
    split at h
    · split at h
      · simp only [Option.some.injEq, Prod.mk.injEq] at h
        obtain ⟨rfl, rfl⟩ := h
        simp
      · exact step h
    split at h
    · contradiction
    · exact step h

/-- Reads identifiers joined by double colons, with white space allowed around each of them. -/
def qualified? (cs : List Char) : Option (List Char × List Char) :=
  match cs with
  | [] => none
  | c :: cs =>
    if isNameStart c then
      let word := c :: cs.takeWhile isNameChar
      let behind := cs.dropWhile isNameChar
      match h : after? [':', ':'] (behind.dropWhile isGapChar) with
      | none => some (word, behind)
      | some next =>
        have : (next.dropWhile isGapChar).length < cs.length + 1 := by
          have h₁ := (List.dropWhile_sublist isGapChar (l := next)).length_le
          have h₂ := (List.dropWhile_sublist isGapChar (l := behind)).length_le
          have h₃ := (List.dropWhile_sublist isNameChar (l := cs)).length_le
          rw [after?_eq_some_iff.1 h, List.length_append] at h₂
          simp only [behind] at h₂
          omega
        (qualified? (next.dropWhile isGapChar)).map fun (more, rest) =>
          (word ++ behind.takeWhile isGapChar ++ [':', ':'] ++ next.takeWhile isGapChar ++ more,
            rest)
    else none
termination_by cs.length

theorem qualified?_sound {cs text rest : List Char} (h : qualified? cs = some (text, rest)) :
    text ≠ [] ∧ cs = text ++ rest := by
  fun_induction qualified? cs generalizing text rest with
  | case1 => contradiction
  | case2 c cs _ word =>
    rename_i behind _
    simp only [Option.some.injEq, Prod.mk.injEq] at h
    obtain ⟨rfl, rfl⟩ := h
    simp [word, behind]
  | case3 c cs _ word behind =>
    rename_i next ha _ ih
    obtain ⟨⟨t, r⟩, ht, he⟩ := Option.map_eq_some_iff.1 h
    simp only [Prod.mk.injEq] at he
    obtain ⟨rfl, rfl⟩ := he
    rw [after?_eq_some_iff] at ha
    refine ⟨by simp [word], ?_⟩
    have hb : word ++ behind = c :: cs := by simp [word, behind]
    rw [← hb, List.append_assoc, List.append_assoc, List.append_assoc, List.append_assoc,
      ← (ih ht).2, List.takeWhile_append_dropWhile, ← ha, List.takeWhile_append_dropWhile]
  | case4 => contradiction

def qualifiedName? (cs : List Char) : Option (List Char × List Char) :=
  match after? [':', ':'] cs with
  | none => qualified? cs
  | some next =>
    (qualified? (next.dropWhile isGapChar)).map fun (more, rest) =>
      ([':', ':'] ++ next.takeWhile isGapChar ++ more, rest)

theorem qualifiedName?_sound {cs text rest : List Char}
    (h : qualifiedName? cs = some (text, rest)) : text ≠ [] ∧ cs = text ++ rest := by
  unfold qualifiedName? at h
  split at h
  · exact qualified?_sound h
  · rename_i next ha
    obtain ⟨⟨t, r⟩, ht, he⟩ := Option.map_eq_some_iff.1 h
    simp only [Prod.mk.injEq] at he
    obtain ⟨rfl, rfl⟩ := he
    refine ⟨by simp, ?_⟩
    rw [after?_eq_some_iff.1 ha, List.append_assoc, List.append_assoc, ← (qualified?_sound ht).2,
      List.takeWhile_append_dropWhile]

def operatorWord : List Char := "operator".toList

/-- The identifier names an operator overload, judged by how its text ends. -/
def isOperator (name : List Char) : Bool :=
  name == operatorWord || (':' :: ':' :: operatorWord).isSuffixOf name

inductive Token where
  /-- A pointer or reference sign. -/
  | sign (c : Char)
  /-- A template argument list with its brackets. -/
  | angles (text : List Char)
  /-- A qualified identifier, with the white space inside it. -/
  | name (text : List Char)
deriving DecidableEq, Repr

namespace Token

def text : Token → List Char
  | sign c => [c]
  | angles t | name t => t

def isName : Token → Bool
  | name _ => true
  | _ => false

end Token

/-- Reads one token. Operator overloads are no tokens, so no declaration of one is recognised. -/
def token? : List Char → Option (Token × List Char)
  | [] => none
  | c :: cs =>
    if c = '*' || c = '&' then some (.sign c, cs)
    else if c = '<' then
      (angles? 1 0 cs).map fun (text, rest) => (.angles (c :: text), rest)
    else
      match qualifiedName? (c :: cs) with
      | some (text, rest) => if isOperator text then none else some (.name text, rest)
      | none => none

theorem token?_sound {cs rest : List Char} {t : Token} (h : token? cs = some (t, rest)) :
    t.text ≠ [] ∧ cs = t.text ++ rest := by
  unfold token? at h
  split at h
  · contradiction
  · split at h
    · simp only [Option.some.injEq, Prod.mk.injEq] at h
      obtain ⟨rfl, rfl⟩ := h
      simp [Token.text]
    · split at h
      · obtain ⟨⟨t, r⟩, ht, he⟩ := Option.map_eq_some_iff.1 h
        simp only [Prod.mk.injEq] at he
        obtain ⟨rfl, rfl⟩ := he
        exact ⟨by simp [Token.text], by rw [(angles?_sound ht).2]; rfl⟩
      · split at h
        · rename_i ht
          split at h
          · contradiction
          · simp only [Option.some.injEq, Prod.mk.injEq] at h
            obtain ⟨rfl, rfl⟩ := h
            exact qualifiedName?_sound ht
        · contradiction

end Reflector
