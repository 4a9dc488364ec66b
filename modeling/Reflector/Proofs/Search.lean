import Reflector.Text.Pattern

namespace Reflector.Text

theorem splitFromByte_byteLength (a b : List Char) :
    splitFromByte (byteLength a) (a ++ b) = (a, b) := by
  induction a with
  | nil => simp [splitFromByte]
  | cons c a ih =>
    obtain ⟨n, hn⟩ := Nat.exists_eq_add_one_of_ne_zero (Nat.ne_of_gt c.utf8Size_pos)
    have hc : byteLength (c :: a) = (n + byteLength a) + 1 := by
      rw [byteLength_cons, hn]
      omega
    have hrest : (n + byteLength a) + 1 - c.utf8Size = byteLength a := by omega
    rw [hc, List.cons_append, splitFromByte, hrest, ih]

theorem byteLength_eq_zero {cs : List Char} (h : byteLength cs = 0) : cs = [] := by
  cases cs with
  | nil => rfl
  | cons c cs =>
    have := c.utf8Size_pos
    rw [byteLength_cons] at h
    omega

theorem splitFromByte_of_byteLength_le {n : Nat} {cs : List Char} (h : byteLength cs ≤ n) :
    splitFromByte n cs = (cs, []) := by
  fun_induction splitFromByte n cs with
  | case1 cs => rw [byteLength_eq_zero (Nat.le_zero.mp h)]
  | case2 => rfl
  | case3 n c rest before after heq ih =>
    rw [byteLength_cons] at h
    obtain ⟨rfl, rfl⟩ := Prod.mk.inj (heq.symm.trans (ih (by omega)))
    rfl

theorem slice_byteLength (a b c : List Char) :
    slice (byteLength a) (byteLength a + byteLength b) (a ++ b ++ c) = b := by
  rw [slice, ← byteLength_append, splitFromByte_byteLength, splitFromByte_byteLength]

theorem exists_append_of_byteLength_le {a b c d : List Char} (h : a ++ b = c ++ d)
    (hle : byteLength a ≤ byteLength c) : ∃ e, c = a ++ e ∧ b = e ++ d := by
  rcases List.append_eq_append_iff.mp h with ⟨e, hc, hb⟩ | ⟨e, ha, hd⟩
  · exact ⟨e, hc, hb⟩
  · have he : e = [] := by
      apply byteLength_eq_zero
      rw [ha, byteLength_append] at hle
      omega
    subst he
    exact ⟨[], by simpa using ha.symm, by simpa using hd.symm⟩

theorem append_inj_of_byteLength {a b c d : List Char} (h : a ++ b = c ++ d)
    (hlength : byteLength a = byteLength c) : a = c ∧ b = d := by
  have hsplit := splitFromByte_byteLength a b
  rw [h, hlength, splitFromByte_byteLength] at hsplit
  exact Prod.mk.inj hsplit.symm

theorem length_lt_of_byteLength_lt {a b c d : List Char} (h : a ++ b = c ++ d)
    (hlt : byteLength a < byteLength c) : a.length < c.length := by
  obtain ⟨e, rfl, -⟩ := exists_append_of_byteLength_le h (Nat.le_of_lt hlt)
  cases e with
  | nil => simp at hlt
  | cons x e => simp

/-- A beginning of a text in which a character occurs goes beyond the first place of that character. -/
theorem exists_append_of_first {c : Char} {a b front rest : List Char}
    (h : a ++ b = front ++ c :: rest) (hfront : c ∉ front) (ha : c ∈ a) :
    ∃ e, a = front ++ c :: e ∧ rest = e ++ b := by
  rcases List.append_eq_append_iff.mp h with ⟨e, rfl, -⟩ | ⟨e, rfl, he⟩
  · exact absurd (List.mem_append_left _ ha) hfront
  · cases e with
    | nil => exact absurd (by simpa using ha) hfront
    | cons d e =>
      obtain ⟨rfl, rfl⟩ := List.cons.inj he
      exact ⟨e, rfl, rfl⟩

/-- A run of one class ends where something outside the class comes next, so that equal texts begin
with equal runs. -/
theorem append_inj_of_stop {α : Type} {p : α → Bool} {run run' rest rest' : List α}
    (h : run ++ rest = run' ++ rest') (hrun : ∀ x ∈ run, p x = true)
    (hrun' : ∀ x ∈ run', p x = true) (hrest : ∀ x ∈ rest.head?, p x = false)
    (hrest' : ∀ x ∈ rest'.head?, p x = false) : run = run' ∧ rest = rest' := by
  rcases List.append_eq_append_iff.mp h with ⟨more, rfl, he⟩ | ⟨more, rfl, he⟩
  · cases more with
    | nil => exact ⟨(List.append_nil run).symm, he⟩
    | cons x more =>
      have hin := hrun' x (by simp)
      have hout := hrest x (by simp [he])
      exact absurd hin (by simp [hout])
  · cases more with
    | nil => exact ⟨List.append_nil run', he.symm⟩
    | cons x more =>
      have hin := hrun x (by simp)
      have hout := hrest' x (by simp [he])
      exact absurd hin (by simp [hout])

theorem first_unique {c : Char} {front front' rest rest' : List Char}
    (h : front ++ c :: rest = front' ++ c :: rest') (hfront : c ∉ front) (hfront' : c ∉ front') :
    front = front' ∧ rest = rest' := by
  have htake := congrArg (List.takeWhile (· != c)) h
  rw [takeWhile_ne_append hfront, takeWhile_ne_append hfront'] at htake
  subst htake
  exact ⟨rfl, (List.cons.inj (List.append_cancel_left h)).2⟩

theorem getLast?_cons_or (c : Char) (a : List Char) (left : Option Char) :
    (c :: a).getLast?.or left = a.getLast?.or (some c) := by
  rw [List.getLast?_cons]
  cases a.getLast? <;> rfl

theorem getLast?_append_or {run : List Char} (hrun : run ≠ []) (a : List Char) (left : Option Char) :
    (run ++ a).getLast?.or left = a.getLast?.or run.getLast? := by
  rw [List.getLast?_append, Option.or_assoc, List.getLast?_eq_some_getLast hrun, Option.some_or]

namespace Pattern

variable {p : Pattern} {left : Option Char} {cs : List Char}

theorem find?_eq_none (h : p.find? left cs = none) {a b : List Char} (hab : cs = a ++ b) :
    p.match? (a.getLast?.or left) b = none := by
  induction cs generalizing left a b with
  | nil =>
    obtain ⟨rfl, rfl⟩ := List.append_eq_nil_iff.mp hab.symm
    rw [find?.eq_def] at h
    cases hm : p.match? left [] with
    | none => simpa using hm
    | some x => simp [hm] at h
  | cons c rest ih =>
    rw [find?.eq_def] at h
    cases hm : p.match? left (c :: rest) with
    | some x => simp [hm] at h
    | none =>
      have hrest : p.find? (some c) rest = none := by simpa [hm] using h
      cases a with
      | nil =>
        rw [List.nil_append] at hab
        subst hab
        simpa using hm
      | cons d a =>
        simp only [List.cons_append, List.cons.injEq] at hab
        obtain ⟨rfl, hab⟩ := hab
        rw [getLast?_cons_or]
        exact ih hrest hab

theorem find?_eq_some {o : Occurrence} (h : p.find? left cs = some o) :
    cs = o.before ++ (o.piece ++ o.after) ∧
      p.match? (o.before.getLast?.or left) (o.piece ++ o.after) = some (o.piece, o.after) ∧
      ∀ a b, cs = a ++ b → a.length < o.before.length → p.match? (a.getLast?.or left) b = none := by
  induction cs generalizing left o with
  | nil =>
    rw [find?.eq_def] at h
    cases hm : p.match? left [] with
    | none => simp [hm] at h
    | some x =>
      simp only [hm, Option.some.injEq] at h
      subst h
      have hs := (p.sound hm).2
      refine ⟨hs, ?_, by simp⟩
      rw [← hs]
      simpa using hm
  | cons c rest ih =>
    rw [find?.eq_def] at h
    cases hm : p.match? left (c :: rest) with
    | some x =>
      simp only [hm, Option.some.injEq] at h
      subst h
      have hs := (p.sound hm).2
      refine ⟨hs, ?_, by simp⟩
      rw [← hs]
      simpa using hm
    | none =>
      simp only [hm, Option.map_eq_some_iff] at h
      obtain ⟨o', ho', rfl⟩ := h
      obtain ⟨hs, hmatch, hleft⟩ := ih ho'
      refine ⟨by rw [hs]; rfl, ?_, ?_⟩
      · rw [getLast?_cons_or]
        exact hmatch
      · intro a b hab hlt
        cases a with
        | nil =>
          rw [List.nil_append] at hab
          subst hab
          simpa using hm
        | cons d a =>
          simp only [List.cons_append, List.cons.injEq] at hab
          obtain ⟨rfl, hab⟩ := hab
          rw [getLast?_cons_or]
          exact hleft a b hab (by simpa using hlt)

theorem find?_nil (p : Pattern) (left : Option Char) : p.find? left [] = none := by
  rw [Option.eq_none_iff_forall_ne_some]
  intro o h
  exact absurd (length_after_lt h) (Nat.not_lt_zero _)

private theorem match?_nil (p : Pattern) (left : Option Char) : p.match? left [] = none := by
  rw [Option.eq_none_iff_forall_ne_some]
  rintro ⟨piece, rest⟩ h
  obtain ⟨hne, hs⟩ := p.sound h
  exact hne (List.append_eq_nil_iff.mp hs.symm).1

theorem mem_offsetsFrom_iff {offset pos : Nat} :
    pos ∈ p.offsetsFrom offset left cs ↔ ∃ a b, cs = a ++ b ∧ pos = offset + byteLength a ∧
      (p.match? (a.getLast?.or left) b).isSome = true := by
  induction cs generalizing offset left with
  | nil =>
    simp only [offsetsFrom, List.not_mem_nil, false_iff]
    rintro ⟨a, b, hab, -, hm⟩
    obtain ⟨rfl, rfl⟩ := List.append_eq_nil_iff.mp hab.symm
    rw [match?_nil] at hm
    contradiction
  | cons c cs ih =>
    have hlist : pos ∈ p.offsetsFrom offset left (c :: cs) ↔
        (pos = offset ∧ (p.match? left (c :: cs)).isSome = true) ∨
          pos ∈ p.offsetsFrom (offset + c.utf8Size) (some c) cs := by
      rw [offsetsFrom]
      split
      · rename_i hm
        simp [hm]
      · rename_i hm
        simp [hm]
    rw [hlist, ih]
    constructor
    · rintro (⟨rfl, hm⟩ | ⟨a, b, rfl, rfl, hm⟩)
      · exact ⟨[], c :: cs, rfl, rfl, hm⟩
      · exact ⟨c :: a, b, rfl, by rw [byteLength_cons, Nat.add_assoc], by rwa [getLast?_cons_or]⟩
    · rintro ⟨a, b, hab, rfl, hm⟩
      cases a with
      | nil =>
        obtain rfl : c :: cs = b := hab
        exact Or.inl ⟨rfl, hm⟩
      | cons d a =>
        obtain ⟨rfl, rfl⟩ := List.cons.inj hab
        rw [getLast?_cons_or] at hm
        exact Or.inr ⟨a, b, rfl, by rw [byteLength_cons, Nat.add_assoc], hm⟩

theorem find?_of_match {piece rest : List Char} (h : p.match? left cs = some (piece, rest)) :
    p.find? left cs = some ⟨[], piece, rest⟩ := by
  rw [find?.eq_def, h]

/-- A search passes over a text in which no piece begins. -/
theorem find?_append_of_forall {gap : List Char} (left : Option Char) (cs : List Char)
    (h : ∀ a b, gap = a ++ b → b ≠ [] → p.match? (a.getLast?.or left) (b ++ cs) = none) :
    p.find? left (gap ++ cs) =
      (p.find? (gap.getLast?.or left) cs).map fun o => { o with before := gap ++ o.before } := by
  induction gap generalizing left with
  | nil => simp
  | cons c gap ih =>
    have hc : p.match? left (c :: (gap ++ cs)) = none := h [] (c :: gap) rfl (List.cons_ne_nil c gap)
    have hgap := ih (some c) <| by
      intro a b hab hb
      rw [← getLast?_cons_or]
      exact h (c :: a) b (by rw [hab]; rfl) hb
    rw [List.cons_append, find?.eq_def, hc]
    simp only [hgap, getLast?_cons_or, Option.map_map]
    rfl

theorem find?_append {gap : List Char} (left : Option Char) (cs : List Char)
    (h : ∀ c ∈ gap, ∀ left rest, p.match? left (c :: rest) = none) :
    p.find? left (gap ++ cs) =
      (p.find? (gap.getLast?.or left) cs).map fun o => { o with before := gap ++ o.before } := by
  apply find?_append_of_forall
  intro a b hab hb
  obtain ⟨c, b, rfl⟩ := List.exists_cons_of_ne_nil hb
  exact h c (by simp [hab]) _ _

theorem find?_eq_none_of_forall (left : Option Char)
    (h : ∀ c ∈ cs, ∀ left rest, p.match? left (c :: rest) = none)
    (hnil : ∀ left, p.match? left [] = none) : p.find? left cs = none := by
  have hsearch := find?_append left [] h
  rw [List.append_nil] at hsearch
  rw [hsearch, find?.eq_def, hnil]
  rfl

theorem spansFrom_of_none {offset : Nat} (h : p.find? left cs = none) :
    p.spansFrom offset left cs = [] := by
  rw [spansFrom.eq_def]
  split
  · rfl
  · rename_i heq
    rw [h] at heq
    contradiction

theorem spansFrom_of_some {offset : Nat} {o : Occurrence} (h : p.find? left cs = some o) :
    p.spansFrom offset left cs =
      ⟨offset + byteLength o.before, offset + byteLength o.before + byteLength o.piece⟩ ::
        p.spansFrom (offset + byteLength o.before + byteLength o.piece) o.piece.getLast? o.after := by
  rw [spansFrom.eq_def]
  split
  · rename_i heq
    rw [h] at heq
    contradiction
  · rename_i heq
    rw [h] at heq
    obtain rfl := Option.some.inj heq
    rfl

theorem replace_of_none {new : List Char} (h : p.find? left cs = none) :
    p.replace new left cs = cs := by
  rw [replace.eq_def]
  split
  · rfl
  · rename_i heq
    rw [h] at heq
    contradiction

theorem replace_of_some {new : List Char} {o : Occurrence} (h : p.find? left cs = some o) :
    p.replace new left cs = o.before ++ new ++ p.replace new o.piece.getLast? o.after := by
  rw [replace.eq_def]
  split
  · rename_i heq
    rw [h] at heq
    contradiction
  · rename_i heq
    rw [h] at heq
    obtain rfl := Option.some.inj heq
    rfl

theorem replace_of_match {new piece rest : List Char} (h : p.match? left cs = some (piece, rest)) :
    p.replace new left cs = new ++ p.replace new piece.getLast? rest := by
  rw [replace_of_some (find?_of_match h), List.nil_append]

theorem replace_cons {new : List Char} {c : Char} (h : p.match? left (c :: cs) = none) :
    p.replace new left (c :: cs) = c :: p.replace new (some c) cs := by
  have hfind : p.find? left (c :: cs) =
      (p.find? (some c) cs).map fun o => { o with before := c :: o.before } := by
    rw [find?.eq_def, h]
  cases hrest : p.find? (some c) cs with
  | none =>
    rw [hrest] at hfind
    rw [replace_of_none hfind, replace_of_none hrest]
  | some o =>
    rw [hrest] at hfind
    rw [replace_of_some hfind, replace_of_some hrest]
    rfl

end Pattern

end Reflector.Text
