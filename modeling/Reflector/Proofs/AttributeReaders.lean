import Reflector.Proofs.ByteDeclaration
import Reflector.Proofs.Sweep
/-!
# Two readers of attributes

The reader of declarations closes an attribute with the first two closing brackets behind its opening
ones. The pattern that takes the attributes out of a header admits no closing bracket between them. So
the two part at an attribute with such a bracket in its arguments, and agree on every other one.
-/

namespace Reflector.Bytes

open Text

/-- The index behind the first two closing brackets that follow the two characters at an index. -/
def attributeStop? (bytes : List UInt8) (i : Nat) : Option Nat :=
  (findPair? ']' ']' bytes (i + 2)).map (· + 2)

end Reflector.Bytes

namespace Reflector

open Text Bytes

structure AttributeOpening (text : List Char) where
  before : List Char
  inside : List Char
  text_eq : text = before ++ '[' :: '[' :: inside

namespace AttributeOpening

variable {text : List Char}

def offset (opening : AttributeOpening text) : Nat :=
  byteLength opening.before

/-- An attribute with no closing bracket in it stands from the brackets to the offset. -/
def IsPlain (opening : AttributeOpening text) (stop : Nat) : Prop :=
  ∃ plain after, opening.inside = plain ++ ([']', ']'] ++ after) ∧ ']' ∉ plain ∧
    stop = opening.offset + 2 + byteLength plain + 2

end AttributeOpening

private theorem attribute?_eq_some_iff {cs piece rest : List Char} :
    attribute? cs = some (piece, rest) ↔
      ∃ inside, ']' ∉ inside ∧ piece = ['[', '['] ++ inside ++ [']', ']'] ∧ cs = piece ++ rest := by
  constructor
  · intro h
    have hmatch : attributePattern.match? none cs = some (piece, rest) := h
    obtain ⟨-, hcs⟩ := attributePattern.sound hmatch
    unfold attribute? at h
    split at h
    · rename_i cs
      simp only at h
      split at h
      · obtain ⟨rfl, rfl⟩ := Prod.mk.inj (Option.some.inj h)
        exact ⟨cs.takeWhile (· != ']'), not_mem_takeWhile_ne ']' cs, rfl, hcs⟩
      · contradiction
    · contradiction
  · rintro ⟨inside, hinside, rfl, rfl⟩
    exact attribute?_append hinside rest

private theorem closesAttribute_of_not_mem {inside : List Char} (h : ']' ∉ inside) :
    ClosesAttribute (inside ++ [']', ']']) := by
  refine ⟨inside, rfl, fun hpair => ?_⟩
  have hcount := hpair.sublist.count_le ']'
  rw [List.count_append, List.count_eq_zero.mpr h] at hcount
  exact absurd hcount (by decide)

private theorem byteLength_closed (text : List Char) :
    byteLength (text ++ [']', ']']) = byteLength text + 2 :=
  byteLength_append text [']', ']']

namespace AttributeOpening

variable {text : List Char} (opening : AttributeOpening text) {stop : Nat}

private theorem begins : Begins text opening.offset ('[' :: '[' :: opening.inside) :=
  ⟨opening.before, opening.text_eq, rfl⟩

private theorem attributeStop?_eq : attributeStop? (encode text) opening.offset =
    (attributeEnd? opening.inside).map fun (text, _) => opening.offset + 2 + byteLength text :=
  findPair?_eq_attributeEnd? (opening.begins.pair (by decide) (by decide))

private theorem attributeStop?_eq_some_iff : attributeStop? (encode text) opening.offset = some stop ↔
    ∃ piece after, opening.inside = piece ++ after ∧ ClosesAttribute piece ∧
      stop = opening.offset + 2 + byteLength piece := by
  rw [attributeStop?_eq, Option.map_eq_some_iff]
  constructor
  · rintro ⟨⟨piece, after⟩, hend, hstop⟩
    exact ⟨piece, after, attributeEnd?_sound hend, attributeEnd?_closes hend, hstop.symm⟩
  · rintro ⟨piece, after, hinside, hpiece, hstop⟩
    refine ⟨(piece, after), ?_, hstop.symm⟩
    rw [hinside, attributeEnd?_of_closes hpiece]

/-- The reader of declarations goes on behind an attribute, and fails if it stays open. -/
theorem skipAttributes?_eq_elim : skipAttributes? (encode text) opening.offset =
    (attributeStop? (encode text) opening.offset).elim (some none)
      (skipAttributes? (encode text)) := by
  rw [skipAttributes?_open opening.begins, attributeStop?_eq]
  cases attributeEnd? opening.inside <;> rfl

private theorem recognises_iff_isPlain :
    attributePattern.Recognises text ⟨opening.offset, stop⟩ ↔ opening.IsPlain stop := by
  have hlength : ∀ plain : List Char, opening.offset + byteLength (['[', '['] ++ plain ++ [']', ']']) =
      opening.offset + 2 + byteLength plain + 2 := by
    intro plain
    rw [byteLength_closed, byteLength_append, ← Nat.add_assoc, ← Nat.add_assoc]
    rfl
  constructor
  · rintro ⟨before, piece, after, htext, hstart, hstop, hmatch⟩
    obtain ⟨plain, hplain, rfl, -⟩ := attribute?_eq_some_iff.mp hmatch
    obtain ⟨-, hinside⟩ := append_inj_of_byteLength (opening.text_eq.symm.trans htext) hstart
    exact ⟨plain, after, by simpa using hinside, hplain, hstop.trans (hlength plain)⟩
  · rintro ⟨plain, after, hinside, hplain, hstop⟩
    refine ⟨opening.before, ['[', '['] ++ plain ++ [']', ']'], after, ?_, rfl,
      hstop.trans (hlength plain).symm, attribute?_append hplain after⟩
    exact opening.text_eq.trans (by simp [hinside])

private theorem slice_inside {plain after : List Char} (hinside : opening.inside = plain ++ after) :
    slice (opening.offset + 2) (opening.offset + 2 + byteLength plain) text = plain := by
  have htext : text = opening.before ++ ['[', '['] ++ plain ++ after :=
    opening.text_eq.trans (by simp [hinside])
  have hoffset : opening.offset + 2 = byteLength (opening.before ++ ['[', '[']) := by
    rw [byteLength_append]
    rfl
  rw [hoffset]
  exact (congrArg (slice _ _) htext).trans (slice_byteLength _ plain after)

/-- A plain attribute is one that the reader of declarations closes, with no closing bracket inside. -/
theorem isPlain_iff : opening.IsPlain stop ↔
    attributeStop? (encode text) opening.offset = some stop ∧
      ']' ∉ slice (opening.offset + 2) (stop - 2) text := by
  rw [attributeStop?_eq_some_iff]
  constructor
  · rintro ⟨plain, after, hinside, hplain, rfl⟩
    refine ⟨⟨plain ++ [']', ']'], after, by simp [hinside], closesAttribute_of_not_mem hplain, ?_⟩, ?_⟩
    · rw [byteLength_closed, Nat.add_assoc]
    · rwa [Nat.add_sub_cancel, opening.slice_inside hinside]
  · rintro ⟨⟨_, after, hinside, ⟨plain, rfl, -⟩, rfl⟩, hplain⟩
    rw [List.append_assoc] at hinside
    rw [byteLength_closed, ← Nat.add_assoc] at hplain ⊢
    rw [Nat.add_sub_cancel, opening.slice_inside hinside] at hplain
    exact ⟨plain, after, hinside, hplain, rfl⟩

end AttributeOpening

/-- The reader of declarations goes on behind the first two closing brackets that follow the opening
ones. The pattern recognises that attribute, and no other there, if no closing bracket is between them;
and what it recognises outside the attributes further left is found by its sweep. -/
theorem attributeReaders_spec {text : List Char} (opening : AttributeOpening text) (stop : Nat) :
    skipAttributes? (encode text) opening.offset =
        (attributeStop? (encode text) opening.offset).elim (some none)
          (skipAttributes? (encode text)) ∧
      (attributeStop? (encode text) opening.offset = some stop ↔
        ∃ piece after, opening.inside = piece ++ after ∧ ClosesAttribute piece ∧
          stop = opening.offset + 2 + byteLength piece) ∧
      (attributePattern.Recognises text ⟨opening.offset, stop⟩ ↔
        attributeStop? (encode text) opening.offset = some stop ∧
          ']' ∉ slice (opening.offset + 2) (stop - 2) text) ∧
      ((∀ span ∈ attributePattern.spans text,
          ¬ (span.start < opening.offset ∧ opening.offset < span.stop)) →
        (⟨opening.offset, stop⟩ ∈ attributePattern.spans text ↔
          attributeStop? (encode text) opening.offset = some stop ∧
            ']' ∉ slice (opening.offset + 2) (stop - 2) text)) := by
  have hreaders : attributePattern.Recognises text ⟨opening.offset, stop⟩ ↔ _ :=
    opening.recognises_iff_isPlain.trans opening.isPlain_iff
  refine ⟨opening.skipAttributes?_eq_elim, opening.attributeStop?_eq_some_iff, hreaders, ?_⟩
  intro houtside
  exact (Pattern.mem_spans_iff houtside).trans hreaders

/-- An attribute with a line break in it, behind one with an index in its arguments. -/
theorem attributeReaders_spec_lineBreak :
    ⟨12, 20⟩ ∈ attributePattern.spans "[[f(b[0])]] [[g(\n)]] x".toList ∧
      skipAttributes? (encode "[[f(b[0])]] [[g(\n)]] x".toList) 12 = some (some 21) := by
  let opening : AttributeOpening "[[f(b[0])]] [[g(\n)]] x".toList :=
    ⟨"[[f(b[0])]] ".toList, "g(\n)]] x".toList, by decide +kernel⟩
  obtain ⟨hskip, -, -, hsweep⟩ := attributeReaders_spec opening 20
  have hstop : attributeStop? (encode "[[f(b[0])]] [[g(\n)]] x".toList) opening.offset = some 20 := by
    decide +kernel
  refine ⟨(hsweep (by decide +kernel)).mpr ⟨hstop, by decide +kernel⟩, ?_⟩
  rw [hstop] at hskip
  exact hskip.trans (by decide +kernel)

/-- An index in the arguments of an attribute keeps the pattern from recognising it. The reader of
declarations closes it, and the name of the class is looked for in it. -/
theorem exists_attribute_not_recognised :
    attributeStop? (encode "class A [[f(b[0])]] \x7b".toList) 8 = some 19 ∧
      skipAttributes? (encode "class A [[f(b[0])]] \x7b".toList) 8 = some (some 20) ∧
      attributePattern.spans "class A [[f(b[0])]] \x7b".toList = [] ∧
      headerName ["class".toList] "class A [[f(b[0])]] \x7b".toList = .ok "[[f(b[0])]]" :=
  ⟨by decide +kernel, by decide +kernel, by decide +kernel, by decide +kernel⟩

end Reflector
