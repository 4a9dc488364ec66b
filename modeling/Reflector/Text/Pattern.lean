import Reflector.Text.Offset
/-!
# Patterns

A pattern recognises a nonempty piece at the head of a text and may look at the character to its
left. Searching for one takes the leftmost place where it is recognised, and its spans are found
from left to right, each after the end of the one before.
-/

namespace Reflector.Text

/-- The rest of a text after the literal `word`, or `none` if the text does not begin with it. -/
def after? (word cs : List Char) : Option (List Char) :=
  if word <+: cs then some (cs.drop word.length) else none

theorem after?_eq_some_iff {word cs rest : List Char} :
    after? word cs = some rest ↔ cs = word ++ rest := by
  simp only [after?]
  constructor
  · intro h
    split at h
    · rename_i hp
      rw [List.prefix_iff_eq_append] at hp
      simp only [Option.some.injEq] at h
      rw [← h, hp]
    · contradiction
  · rintro rfl
    simp

@[simp] theorem after?_append (word rest : List Char) : after? word (word ++ rest) = some rest :=
  after?_eq_some_iff.2 rfl

def hasInfix (word : List Char) : List Char → Bool
  | [] => word.isEmpty
  | c :: cs => word.isPrefixOf (c :: cs) || hasInfix word cs

@[simp] theorem hasInfix_iff {word cs : List Char} : hasInfix word cs = true ↔ word <:+: cs := by
  induction cs with
  | nil => simp [hasInfix]
  | cons c cs ih =>
    rw [hasInfix, Bool.or_eq_true, List.isPrefixOf_iff_prefix, ih, List.infix_cons_iff]

theorem not_mem_takeWhile_ne (c : Char) (cs : List Char) : c ∉ cs.takeWhile (· != c) := by
  intro hc
  simpa using List.all_eq_true.mp List.all_takeWhile c hc

private theorem forall_bne {c : Char} {front : List Char} (h : c ∉ front) :
    ∀ x ∈ front, (x != c) = true := by
  intro x hx
  rw [bne_iff_ne]
  rintro rfl
  exact h hx

theorem takeWhile_ne_append {c : Char} {front : List Char} (h : c ∉ front) (rest : List Char) :
    (front ++ c :: rest).takeWhile (· != c) = front := by
  rw [List.takeWhile_append_of_pos (forall_bne h), List.takeWhile_cons_of_neg (by simp),
    List.append_nil]

theorem dropWhile_ne_append {c : Char} {front : List Char} (h : c ∉ front) (rest : List Char) :
    (front ++ c :: rest).dropWhile (· != c) = c :: rest := by
  rw [List.dropWhile_append_of_pos (forall_bne h), List.dropWhile_cons_of_neg (by simp)]

/-- A way to recognise a nonempty piece at the head of a text. -/
structure Pattern where
  /-- The piece recognised and the text after it, given the character to the left of the text. -/
  match? : Option Char → List Char → Option (List Char × List Char)
  /-- The piece is not empty, and piece and rest make up the text. -/
  sound : ∀ {left cs piece rest}, match? left cs = some (piece, rest) →
    piece ≠ [] ∧ cs = piece ++ rest

/-- A piece of a text together with what stands before and after it. -/
structure Occurrence where
  before : List Char
  piece : List Char
  after : List Char
deriving DecidableEq, Repr

/-- The half-open byte range of a piece. -/
structure Span where
  start : Nat
  stop : Nat
deriving DecidableEq, Repr

namespace Pattern

/-- The leftmost occurrence of the pattern; `left` is the character before the text. -/
def find? (p : Pattern) (left : Option Char) (cs : List Char) : Option Occurrence :=
  match p.match? left cs, cs with
  | some (piece, after), _ => some ⟨[], piece, after⟩
  | none, [] => none
  | none, c :: rest =>
    (p.find? (some c) rest).map fun o => { o with before := c :: o.before }

theorem find?_sound {p : Pattern} {left : Option Char} {cs : List Char} {o : Occurrence}
    (h : p.find? left cs = some o) : o.piece ≠ [] ∧ cs = o.before ++ o.piece ++ o.after := by
  induction cs generalizing left o with
  | nil =>
    rw [find?.eq_def] at h
    split at h
    · rename_i hm
      simp only [Option.some.injEq] at h
      subst h
      simpa using p.sound hm
    · contradiction
    · contradiction
  | cons c rest ih =>
    rw [find?.eq_def] at h
    split at h
    · rename_i hm
      simp only [Option.some.injEq] at h
      subst h
      simpa using p.sound hm
    · contradiction
    · rename_i heq
      simp only [List.cons.injEq] at heq
      obtain ⟨rfl, rfl⟩ := heq
      obtain ⟨o', ho', rfl⟩ := Option.map_eq_some_iff.1 h
      obtain ⟨hp, hs⟩ := ih ho'
      exact ⟨hp, by simp [hs]⟩

theorem length_after_lt {p : Pattern} {left : Option Char} {cs : List Char} {o : Occurrence}
    (h : p.find? left cs = some o) : o.after.length < cs.length := by
  obtain ⟨hp, hs⟩ := find?_sound h
  have := List.length_pos_iff.2 hp
  rw [hs]
  simp only [List.length_append]
  omega

def occursIn (p : Pattern) (cs : List Char) : Bool :=
  (p.find? none cs).isSome

/-- The occurrences of the pattern from left to right, each after the end of the one before, as
byte ranges. `offset` is the place of the text and `left` the character before it. -/
def spansFrom (p : Pattern) (offset : Nat) (left : Option Char) (cs : List Char) : List Span :=
  match h : p.find? left cs with
  | none => []
  | some o =>
    have := length_after_lt h
    let start := offset + byteLength o.before
    let stop := start + byteLength o.piece
    ⟨start, stop⟩ :: p.spansFrom stop o.piece.getLast? o.after
termination_by cs.length

def spans (p : Pattern) (cs : List Char) : List Span :=
  p.spansFrom 0 none cs

/-- The byte offsets at which the pattern recognises a piece, overlapping pieces included. -/
def offsetsFrom (p : Pattern) (offset : Nat) (left : Option Char) : List Char → List Nat
  | [] => []
  | c :: cs =>
    let later := p.offsetsFrom (offset + c.utf8Size) (some c) cs
    if (p.match? left (c :: cs)).isSome then offset :: later else later

def replace (p : Pattern) (new : List Char) (left : Option Char) (cs : List Char) : List Char :=
  match h : p.find? left cs with
  | none => cs
  | some o =>
    have := length_after_lt h
    o.before ++ new ++ p.replace new o.piece.getLast? o.after
termination_by cs.length

end Pattern

end Reflector.Text
