import Reflector.Proofs.ByteGeneration
/-!
# Offsets that are safe to cut at

The offsets that the byte scanners answer lie where characters begin or end, whatever the text and wherever
they start. So a run of the generator cuts every piece that it takes without failing.
-/

namespace Reflector.Bytes

open Text Source

/-- The scanners of a text answer offsets of the text at which it splits. -/
structure SafeOffsets (cs : List Char) : Prop where
  literal : ∀ i quote, (quote = '"' ∨ quote = '\'') → at? (encode cs) i = some quote →
    ∃ stop, skipLiteral? (encode cs) i = some stop ∧ stop ≤ (encode cs).length ∧ IsBoundary cs stop
  /-- The start may lie inside a character or past the end. -/
  block : ∀ start stop, closeBrace? (encode cs) {} start = some stop →
    stop ≤ (encode cs).length ∧ IsBoundary cs stop
  /-- At a place of the text every reader answers, and a name lies between its place and the end. -/
  declaration : ∀ pos, IsBoundary cs pos → ∃ field? method? name, fieldEnd? cs pos = some field? ∧
    methodEnd? cs pos = some method? ∧ nameStart? cs pos = some name ∧
    name ≤ (encode cs).length ∧ IsBoundary cs name ∧
    ∀ stop, field? = some stop ∨ method? = some stop →
      stop ≤ (encode cs).length ∧ IsBoundary cs stop ∧ pos ≤ name ∧ name < stop

private theorem le_length_of_isBoundary {cs : List Char} {pos : Nat} (h : IsBoundary cs pos) :
    pos ≤ (encode cs).length := by
  obtain ⟨before, after, rfl, rfl⟩ := h.exists_append
  rw [length_encode, byteLength_append]
  exact Nat.le_add_right _ _

private theorem skipLiteral?_isBoundary {cs : List Char} {i : Nat} {quote : Char}
    (hquote : quote = '"' ∨ quote = '\'') (h : at? (encode cs) i = some quote) :
    ∃ stop, skipLiteral? (encode cs) i = some stop ∧ IsBoundary cs stop := by
  have hwide : ¬ IsWide quote := by rcases hquote with rfl | rfl <;> decide
  obtain ⟨rest, hbegins⟩ := Begins.of_at? hwide h
  have hinside := hbegins.cons
  rw [utf8Size_of_not_isWide hwide] at hinside
  have hend := literalEnd_eq hwide hinside
  refine ⟨literalEnd quote (encode cs) (i + 1), by rw [skipLiteral?, h]; rfl, ?_⟩
  rw [← splitLiteral_append quote rest] at hinside
  obtain ⟨before, hcs, hbefore⟩ := hinside.append
  rw [hend, ← hbefore]
  exact isBoundary_of_append hcs

private theorem closeBrace?_isBoundary {cs : List Char} {start stop : Nat}
    (h : closeBrace? (encode cs) {} start = some stop) : IsBoundary cs stop := by
  rw [closeBrace?_eq, blockEnd?] at h
  obtain ⟨⟨text, rest⟩, hblock, rfl⟩ := Option.map_eq_some_iff.mp h
  have hcs : cs = (splitFromByte start cs).1 ++ text ++ rest := by
    rw [List.append_assoc, ← (splitBlock_sound hblock).2, splitFromByte_append]
  have hboundary := isBoundary_of_append hcs
  rwa [byteLength_append] at hboundary

private theorem safeOffsets (cs : List Char) : SafeOffsets cs where
  literal i quote hquote h := by
    obtain ⟨stop, hstop, hboundary⟩ := skipLiteral?_isBoundary hquote h
    exact ⟨stop, hstop, le_length_of_isBoundary hboundary, hboundary⟩
  block start stop h := ⟨(closeBrace?_bounds h).2, closeBrace?_isBoundary h⟩
  declaration pos h := by
    obtain ⟨hfield, hmethod, hname⟩ := declaration_eq h
    have hboundary := isBoundary_nameOffset h
    refine ⟨_, _, _, hfield, hmethod, hname, le_length_of_isBoundary hboundary, hboundary, ?_⟩
    intro stop hstop
    have hend : ∃ kind : MemberKind, kind.end? tokenReader cs pos = some stop := by
      rcases hstop with hstop | hstop
      · exact ⟨.field, hstop⟩
      · exact ⟨.method, hstop⟩
    obtain ⟨kind, hend⟩ := hend
    obtain ⟨hboundary, hle, hlt⟩ := bounds_of_end? hend
    exact ⟨le_length_of_isBoundary hboundary, hboundary, hle, hlt⟩

/-- Every offset that a scanner answers is safe to cut at. Where no class keyword has an opening brace, no
cut of a run fails: the run by byte index is the run on the text. -/
theorem generation_cuts_safely (config : Config)
    (hk : ∀ keyword ∈ config.classKeywords, '{' ∉ keyword.toList) :
    (∀ cs, SafeOffsets cs) ∧ ∀ target source,
      generate? config target source = some (generate config tokenReader target source) ∧
        ∀ decl ∈ (config.scan (prepare config.stripKeyword.toList source.toList)).classes,
          byteLength decl.header ≤ byteLength decl.body := by
  refine ⟨safeOffsets, fun target source => ⟨generate?_eq config target source hk, ?_⟩⟩
  intro decl hdecl
  obtain ⟨behind, hbody⟩ := (standsIn_of_mem_scan hk decl hdecl).header
  rw [← hbody, byteLength_append]
  exact Nat.le_add_right _ _

/-- A wide character stands behind a backslash in a literal, and an attribute before a field has one. -/
def wideUnit : String :=
  "const char *s = \"\\\u00e9\"; class [[refl]] Pod \x7b [[refl]] [[\u00e9]] int id; \x7d;"

theorem generation_cuts_safely_wideUnit :
    (∀ keyword ∈ ({} : Config).classKeywords, '{' ∉ keyword.toList) ∧
      at? (encode wideUnit.toList) 16 = some '"' ∧
      (∃ stop, skipLiteral? (encode wideUnit.toList) 16 = some stop ∧
        IsBoundary wideUnit.toList stop) ∧
      IsBoundary wideUnit.toList 44 ∧
      fieldEnd? wideUnit.toList 44 = some (some 67) ∧
      (∃ name, nameStart? wideUnit.toList 44 = some name ∧ IsBoundary wideUnit.toList name ∧
        44 ≤ name ∧ name < 67) ∧
      generate? {} "Pod" wideUnit = some (generate {} tokenReader "Pod" wideUnit) := by
  have hk : ∀ keyword ∈ ({} : Config).classKeywords, '{' ∉ keyword.toList := by decide
  have hquote : at? (encode wideUnit.toList) 16 = some '"' := by decide +kernel
  have hmark : IsBoundary wideUnit.toList 44 := by decide +kernel
  have hfield : fieldEnd? wideUnit.toList 44 = some (some 67) :=
    (declaration_eq hmark).1.trans (by decide +kernel)
  obtain ⟨hsafe, hrun⟩ := generation_cuts_safely {} hk
  obtain ⟨stop, hstop, -, hboundary⟩ := (hsafe wideUnit.toList).literal 16 '"' (Or.inl rfl) hquote
  obtain ⟨field?, method?, name, hfield', -, hname, -, hplace, hends⟩ :=
    (hsafe wideUnit.toList).declaration 44 hmark
  obtain ⟨-, -, hle, hlt⟩ := hends 67 (Or.inl (Option.some.inj (hfield'.symm.trans hfield)))
  exact ⟨hk, hquote, ⟨stop, hstop, hboundary⟩, hmark, hfield, ⟨name, hname, hplace, hle, hlt⟩,
    (hrun "Pod" wideUnit).1⟩

end Reflector.Bytes
