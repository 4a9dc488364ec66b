import Reflector.Proofs.Search
/-!
# Sweeping a text for a pattern

The spans of a pattern are the pieces that one sweep over the text finds: each is recognised where it
stands, they follow one another without overlap, and every place where a piece is recognised lies in one
of them. No piece is skipped and none is found twice.
-/

namespace Reflector.Text.Pattern

/-- The spans are those that a sweep of a text finds, which starts at the offset and has the character
`left` before it. -/
structure IsSweep (p : Pattern) (offset : Nat) (left : Option Char) (cs : List Char)
    (spans : List Span) : Prop where
  recognised : ∀ span ∈ spans, ∃ before piece after, cs = before ++ (piece ++ after) ∧
    span.start = offset + byteLength before ∧ span.stop = span.start + byteLength piece ∧
    p.match? (before.getLast?.or left) (piece ++ after) = some (piece, after)
  disjoint : spans.Pairwise fun a b => a.start < a.stop ∧ a.stop ≤ b.start
  covers : ∀ pos ∈ p.offsetsFrom offset left cs, ∃ span ∈ spans, span.start ≤ pos ∧ pos < span.stop

variable {p : Pattern} {offset : Nat} {left : Option Char} {cs : List Char}

private theorem IsSweep.le_start {spans : List Span} (h : p.IsSweep offset left cs spans) :
    ∀ span ∈ spans, offset ≤ span.start := by
  intro span hm
  obtain ⟨before, -, -, -, hstart, -⟩ := h.recognised span hm
  omega

private theorem isSweep_nil (h : p.find? left cs = none) : p.IsSweep offset left cs [] where
  recognised := by simp
  disjoint := .nil
  covers := by
    intro pos hpos
    obtain ⟨a, b, hab, -, hm⟩ := mem_offsetsFrom_iff.mp hpos
    rw [find?_eq_none h hab] at hm
    contradiction

private theorem isSweep_cons {o : Occurrence} {spans : List Span} (h : p.find? left cs = some o)
    (hlater : p.IsSweep (offset + byteLength o.before + byteLength o.piece) o.piece.getLast? o.after
      spans) :
    p.IsSweep offset left cs
      (⟨offset + byteLength o.before, offset + byteLength o.before + byteLength o.piece⟩ :: spans) := by
  obtain ⟨hcs, hmatch, hfirst⟩ := find?_eq_some h
  have hpiece : o.piece ≠ [] := (find?_sound h).1
  -- The piece is the left neighbour of what stands behind it.
  have hleft : ∀ a, (o.before ++ (o.piece ++ a)).getLast?.or left = a.getLast?.or o.piece.getLast? := by
    intro a
    rw [List.getLast?_append, Option.or_assoc, getLast?_append_or hpiece]
  refine ⟨?_, ?_, ?_⟩
  · intro span hm
    rcases List.mem_cons.mp hm with rfl | hm
    · exact ⟨o.before, o.piece, o.after, hcs, rfl, rfl, hmatch⟩
    · obtain ⟨before, piece, after, hafter, hstart, hstop, hm⟩ := hlater.recognised span hm
      refine ⟨o.before ++ (o.piece ++ before), piece, after, ?_, ?_, hstop, ?_⟩
      · rw [hcs, hafter]
        simp only [List.append_assoc]
      · rw [hstart, byteLength_append, byteLength_append]
        omega
      · rwa [hleft]
  · refine List.pairwise_cons.mpr ⟨?_, hlater.disjoint⟩
    intro span hm
    have hlong : byteLength o.piece ≠ 0 := mt byteLength_eq_zero hpiece
    have hle := hlater.le_start span hm
    exact ⟨by simp only; omega, hle⟩
  · intro pos hpos
    obtain ⟨a, b, hab, rfl, hm⟩ := mem_offsetsFrom_iff.mp hpos
    have hsplit := hab.symm.trans hcs
    by_cases hbefore : byteLength a < byteLength o.before
    · rw [hfirst a b hab (length_lt_of_byteLength_lt hsplit hbefore)] at hm
      contradiction
    · by_cases hinside : byteLength a < byteLength o.before + byteLength o.piece
      · exact ⟨_, List.mem_cons_self, by simp only; omega, by simp only; omega⟩
      · rw [← List.append_assoc] at hsplit
        obtain ⟨e, rfl, hbehind⟩ := exists_append_of_byteLength_le hsplit.symm <| by
          rw [byteLength_append]
          omega
        rw [List.append_assoc, hleft] at hm
        have hpos' : offset + byteLength (o.before ++ o.piece ++ e) ∈
            p.offsetsFrom (offset + byteLength o.before + byteLength o.piece) o.piece.getLast?
              o.after := by
          rw [mem_offsetsFrom_iff]
          refine ⟨e, b, hbehind, ?_, hm⟩
          rw [byteLength_append, byteLength_append]
          omega
        obtain ⟨span, hspan, hlow, hhigh⟩ := hlater.covers _ hpos'
        exact ⟨span, List.mem_cons_of_mem _ hspan, hlow, hhigh⟩

theorem isSweep_spansFrom (p : Pattern) (offset : Nat) (left : Option Char) (cs : List Char) :
    p.IsSweep offset left cs (p.spansFrom offset left cs) := by
  fun_induction p.spansFrom offset left cs with
  | case1 offset left cs h => exact isSweep_nil h
  | case2 offset left cs o h _ start stop ih => exact isSweep_cons h ih

/-- The span is that of a piece which the pattern recognises where it stands in the text. -/
def Recognises (p : Pattern) (cs : List Char) (span : Span) : Prop :=
  ∃ before piece after, cs = before ++ (piece ++ after) ∧ span.start = byteLength before ∧
    span.stop = span.start + byteLength piece ∧
    p.match? before.getLast? (piece ++ after) = some (piece, after)

private theorem recognises_of_mem_spans {span : Span} (h : span ∈ p.spans cs) :
    p.Recognises cs span := by
  obtain ⟨before, piece, after, hcs, hstart, hstop, hmatch⟩ :=
    (isSweep_spansFrom p 0 none cs).recognised span h
  rw [Nat.zero_add] at hstart
  rw [Option.or_none] at hmatch
  exact ⟨before, piece, after, hcs, hstart, hstop, hmatch⟩

private theorem Recognises.mem_offsetsFrom {span : Span} (h : p.Recognises cs span) :
    span.start ∈ p.offsetsFrom 0 none cs := by
  obtain ⟨before, piece, after, hcs, hstart, -, hmatch⟩ := h
  refine mem_offsetsFrom_iff.mpr ⟨before, piece ++ after, hcs, ?_, ?_⟩
  · rw [hstart, Nat.zero_add]
  · rw [Option.or_none, hmatch]
    rfl

private theorem Recognises.eq_of_start_eq {a b : Span} (ha : p.Recognises cs a)
    (hb : p.Recognises cs b)
    (h : a.start = b.start) : a = b := by
  obtain ⟨before, piece, after, hcs, hstart, hstop, hmatch⟩ := ha
  obtain ⟨before', piece', after', hcs', hstart', hstop', hmatch'⟩ := hb
  obtain ⟨rfl, hrest⟩ := append_inj_of_byteLength (hcs.symm.trans hcs') (by omega)
  rw [hrest, hmatch'] at hmatch
  obtain ⟨rfl, rfl⟩ := Prod.mk.inj (Option.some.inj hmatch)
  have hend : a.stop = b.stop := by omega
  cases a
  cases b
  simp_all only

/-- Outside the spans found further left, the sweep finds whatever is recognised. -/
theorem mem_spans_iff {span : Span}
    (h : ∀ earlier ∈ p.spans cs, ¬ (earlier.start < span.start ∧ span.start < earlier.stop)) :
    span ∈ p.spans cs ↔ p.Recognises cs span := by
  constructor
  · exact recognises_of_mem_spans
  · intro hspan
    obtain ⟨found, hfound, hlow, hhigh⟩ :=
      (isSweep_spansFrom p 0 none cs).covers _ hspan.mem_offsetsFrom
    have hstart : found.start = span.start := by
      have := h found hfound
      omega
    rwa [← (recognises_of_mem_spans hfound).eq_of_start_eq hspan hstart]

end Reflector.Text.Pattern
