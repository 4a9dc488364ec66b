import Reflector.Proofs.AngleList
import Reflector.Proofs.Identifier

namespace Reflector

open Text

private theorem span_append {p : Char → Bool} {run rest : List Char} (hrun : ∀ c ∈ run, p c = true)
    (hrest : ∀ c ∈ rest.head?, p c = false) :
    (run ++ rest).takeWhile p = run ∧ (run ++ rest).dropWhile p = rest := by
  rw [List.takeWhile_append_of_pos hrun, List.dropWhile_append_of_pos hrun]
  cases rest with
  | nil => simp
  | cons c rest => simp [hrest c rfl]

private theorem head?_dropWhile (p : Char → Bool) (cs : List Char) :
    ∀ c ∈ (cs.dropWhile p).head?, p c = false := by
  intro c hc
  have hhead := List.head?_dropWhile_not p cs
  rw [hc] at hhead
  simpa using hhead

theorem not_colons_dropWhile {c : Char} (hgap : isGapChar c = false) (hcolon : c ≠ ':')
    (cs : List Char) : ¬ [':', ':'] <+: (c :: cs).dropWhile isGapChar := by
  rw [List.dropWhile_cons_of_neg (by simp [hgap])]
  intro hp
  exact hcolon (List.cons_prefix_cons.mp hp).1.symm

theorem stopsName_cons {c : Char} (hname : isNameChar c = false) (hgap : isGapChar c = false)
    (hcolon : c ≠ ':') (cs : List Char) : StopsName (c :: cs) :=
  ⟨fun _ hc => Option.some.inj hc ▸ hname, not_colons_dropWhile hgap hcolon cs⟩

private theorem qualified?_word {word cs : List Char} (hw : isIdentifier word = true)
    (hs : StopsName cs) : qualified? (word ++ cs) = some (word, cs) := by
  obtain ⟨hend, hcolons⟩ := hs
  obtain ⟨c, word, rfl, hstart, hchars⟩ := isIdentifier_iff.mp hw
  obtain ⟨htake, hdrop⟩ := span_append hchars hend
  have hnone : after? [':', ':'] (cs.dropWhile isGapChar) = none := by simp [after?, hcolons]
  rw [List.cons_append, qualified?, if_pos hstart]
  simp only [htake, hdrop]
  split
  · rfl
  · rename_i heq
    rw [hdrop, hnone] at heq
    contradiction

private theorem qualified?_join {word gap gap' cs : List Char} (hw : isIdentifier word = true)
    (hg : ∀ c ∈ gap, isGapChar c = true) (hg' : ∀ c ∈ gap', isGapChar c = true)
    (hcs : ∀ c ∈ cs.head?, isGapChar c = false) :
    qualified? (word ++ gap ++ [':', ':'] ++ gap' ++ cs) =
      (qualified? cs).map fun (more, rest) => (word ++ gap ++ [':', ':'] ++ gap' ++ more, rest) := by
  obtain ⟨c, word, rfl, hstart, hchars⟩ := isIdentifier_iff.mp hw
  have hend : ∀ d ∈ (gap ++ ([':', ':'] ++ (gap' ++ cs))).head?, isNameChar d = false := by
    intro d hd
    cases gap with
    | nil =>
      obtain rfl : ':' = d := Option.some.inj hd
      decide
    | cons e gap =>
      obtain rfl : e = d := Option.some.inj hd
      exact isNameChar_of_isGapChar (hg e List.mem_cons_self)
  have hcolon : ∀ d ∈ ([':', ':'] ++ (gap' ++ cs)).head?, isGapChar d = false := by
    intro d hd
    obtain rfl : ':' = d := Option.some.inj hd
    decide
  obtain ⟨htake, hdrop⟩ := span_append hchars hend
  obtain ⟨htake₁, hdrop₁⟩ := span_append hg hcolon
  obtain ⟨htake₂, hdrop₂⟩ := span_append hg' hcs
  have htext : c :: word ++ gap ++ [':', ':'] ++ gap' ++ cs =
      c :: (word ++ (gap ++ ([':', ':'] ++ (gap' ++ cs)))) := by simp
  rw [htext, qualified?, if_pos hstart]
  simp only [htake, hdrop]
  split
  · rename_i heq
    rw [hdrop, hdrop₁, after?_append] at heq
    contradiction
  · rename_i heq
    rw [hdrop, hdrop₁, after?_append] at heq
    obtain rfl := Option.some.inj heq
    simp only [htake₁, htake₂, hdrop₂]

theorem IsQualified.exists_cons {text : List Char} (h : IsQualified text) :
    ∃ c cs, text = c :: cs ∧ isNameStart c = true := by
  cases h with
  | identifier hw =>
    obtain ⟨c, cs, rfl, hc, -⟩ := isIdentifier_iff.mp hw
    exact ⟨c, cs, rfl, hc⟩
  | join hw _ _ _ =>
    obtain ⟨c, cs, rfl, hc, -⟩ := isIdentifier_iff.mp hw
    exact ⟨c, _, rfl, hc⟩

private theorem IsQualified.stopsGap {text : List Char} (h : IsQualified text) (rest : List Char) :
    ∀ c ∈ (text ++ rest).head?, isGapChar c = false := by
  obtain ⟨d, ds, rfl, hd⟩ := h.exists_cons
  intro c hc
  obtain rfl : d = c := Option.some.inj hc
  exact isGapChar_of_isNameStart hd

private theorem qualified?_append {text rest : List Char} (h : IsQualified text)
    (hs : StopsName rest) :
    qualified? (text ++ rest) = some (text, rest) := by
  induction h with
  | identifier hw => exact qualified?_word hw hs
  | @join word gap gap' more hw hg hg' hmore ih =>
    rw [List.append_assoc, qualified?_join hw hg hg' (hmore.stopsGap rest), ih]
    rfl

private theorem isQualified_of_qualified? {cs text rest : List Char}
    (h : qualified? cs = some (text, rest)) : IsQualified text ∧ StopsName rest := by
  have hword : ∀ {c : Char} (cs : List Char), isNameStart c = true →
      isIdentifier (c :: cs.takeWhile isNameChar) = true := by
    intro c cs hc
    exact isIdentifier_iff.mpr ⟨c, _, rfl, hc, List.all_eq_true.mp List.all_takeWhile⟩
  have hblank : ∀ cs : List Char, ∀ c ∈ cs.takeWhile isGapChar, isGapChar c = true :=
    fun cs => List.all_eq_true.mp List.all_takeWhile
  fun_induction qualified? cs generalizing text rest with
  | case1 => contradiction
  | case2 c cs hc word =>
    rename_i behind hnone
    obtain ⟨rfl, rfl⟩ := Prod.mk.inj (Option.some.inj h)
    refine ⟨.identifier (hword cs hc), head?_dropWhile isNameChar cs, ?_⟩
    simpa [after?] using hnone
  | case3 c cs hc word =>
    rename_i behind next ha _ ih
    obtain ⟨⟨t, r⟩, ht, he⟩ := Option.map_eq_some_iff.mp h
    obtain ⟨rfl, rfl⟩ := Prod.mk.inj he
    obtain ⟨hmore, hstop⟩ := ih ht
    exact ⟨.join (hword cs hc) (hblank behind) (hblank next) hmore, hstop⟩
  | case4 => contradiction

private theorem qualifiedName?_eq_some_iff {cs text rest : List Char} :
    qualifiedName? cs = some (text, rest) ↔
      cs = text ++ rest ∧ IsQualifiedName text ∧ StopsName rest := by
  constructor
  · intro h
    refine ⟨(qualifiedName?_sound h).2, ?_⟩
    unfold qualifiedName? at h
    split at h
    · obtain ⟨hq, hs⟩ := isQualified_of_qualified? h
      exact ⟨.relative hq, hs⟩
    · obtain ⟨⟨t, r⟩, ht, he⟩ := Option.map_eq_some_iff.mp h
      obtain ⟨rfl, rfl⟩ := Prod.mk.inj he
      obtain ⟨hq, hs⟩ := isQualified_of_qualified? ht
      exact ⟨.absolute (List.all_eq_true.mp List.all_takeWhile) hq, hs⟩
  · rintro ⟨rfl, hname, hs⟩
    cases hname with
    | relative hq =>
      have hnone : after? [':', ':'] (text ++ rest) = none := by
        obtain ⟨c, cs, rfl, hc⟩ := hq.exists_cons
        have hne : ':' ≠ c := by
          rintro rfl
          exact absurd hc (by decide)
        simp [after?, hne]
      rw [qualifiedName?, hnone]
      exact qualified?_append hq hs
    | @absolute gap more hg hq =>
      obtain ⟨htake, hdrop⟩ := span_append hg (hq.stopsGap rest)
      rw [List.append_assoc, List.append_assoc, qualifiedName?, after?_append]
      simp only [htake, hdrop, qualified?_append hq hs]
      rfl

theorem IsQualifiedName.exists_cons {text : List Char} (h : IsQualifiedName text) :
    ∃ c cs, text = c :: cs ∧ (c = ':' ∨ isNameStart c = true) := by
  cases h with
  | relative hq =>
    obtain ⟨c, cs, rfl, hc⟩ := hq.exists_cons
    exact ⟨c, cs, rfl, Or.inr hc⟩
  | absolute _ _ => exact ⟨':', _, rfl, Or.inl rfl⟩

theorem isOperator_eq_false_iff {name : List Char} :
    isOperator name = false ↔ name ≠ operatorWord ∧ ¬ ':' :: ':' :: operatorWord <:+ name := by
  rw [isOperator, Bool.or_eq_false_iff, beq_eq_false_iff_ne, ← Bool.not_eq_true,
    List.isSuffixOf_iff_suffix]

theorem token?_of_isQualifiedName {text rest : List Char} (hname : IsQualifiedName text)
    (hstop : StopsName rest) :
    token? (text ++ rest) = if isOperator text then none else some (.name text, rest) := by
  have hread : qualifiedName? (text ++ rest) = some (text, rest) :=
    qualifiedName?_eq_some_iff.mpr ⟨rfl, hname, hstop⟩
  obtain ⟨c, cs, rfl, hc⟩ := hname.exists_cons
  have hother : c ≠ '*' ∧ c ≠ '&' ∧ c ≠ '<' := by
    rcases hc with rfl | hc
    · decide
    · refine ⟨?_, ?_, ?_⟩ <;> rintro rfl <;> exact absurd hc (by decide)
  rw [List.cons_append] at hread
  rw [List.cons_append, token?, if_neg (by simp [hother]), if_neg hother.2.2]
  simp only [hread]

theorem token?_of_stands {token : Token} {rest : List Char} (h : token.Stands rest) :
    token? (token.text ++ rest) = some (token, rest) := by
  cases token with
  | sign c => rcases h with rfl | rfl <;> rfl
  | angles text =>
    obtain ⟨inside, rfl⟩ := IsAngleList.bracketed h
    have hread : angles? 1 0 (inside ++ ['>'] ++ rest) = some (inside ++ ['>'], rest) :=
      angles?_eq_some_iff.mpr ⟨rfl, h⟩
    show token? ('<' :: (inside ++ ['>'] ++ rest)) = _
    rw [token?, if_neg (by decide), if_pos rfl, hread]
    rfl
  | name text =>
    obtain ⟨hname, hstop, hoperator⟩ := h
    show token? (text ++ rest) = _
    rw [token?_of_isQualifiedName hname hstop, isOperator_eq_false_iff.mpr hoperator]
    rfl

private theorem stands_of_token? {cs rest : List Char} {token : Token}
    (h : token? cs = some (token, rest)) : token.Stands rest := by
  unfold token? at h
  split at h
  · contradiction
  · split at h
    · rename_i hsign
      obtain ⟨rfl, rfl⟩ := Prod.mk.inj (Option.some.inj h)
      rw [Bool.or_eq_true, decide_eq_true_eq, decide_eq_true_eq] at hsign
      exact hsign
    · split at h
      · rename_i hless
        obtain ⟨⟨t, r⟩, ht, he⟩ := Option.map_eq_some_iff.mp h
        obtain ⟨rfl, rfl⟩ := Prod.mk.inj he
        rw [hless]
        exact (angles?_eq_some_iff.mp ht).2
      · split at h
        · rename_i hname
          split at h
          · contradiction
          · rename_i hoperator
            obtain ⟨rfl, rfl⟩ := Prod.mk.inj (Option.some.inj h)
            obtain ⟨-, hname, hstop⟩ := qualifiedName?_eq_some_iff.mp hname
            exact ⟨hname, hstop, isOperator_eq_false_iff.mp (by simpa using hoperator)⟩
        · contradiction

theorem token?_eq_some_iff {cs rest : List Char} {token : Token} :
    token? cs = some (token, rest) ↔ cs = token.text ++ rest ∧ token.Stands rest := by
  constructor
  · intro h
    exact ⟨(token?_sound h).2, stands_of_token? h⟩
  · rintro ⟨rfl, h⟩
    exact token?_of_stands h

end Reflector
