namespace Reflector.Text

def byteLength : List Char → Nat
  | [] => 0
  | c :: rest => c.utf8Size + byteLength rest

/-- Splits a text at a byte offset. There is no split past the end or inside a character. -/
def splitAtByte? : Nat → List Char → Option (List Char × List Char)
  | 0, cs => some ([], cs)
  | _ + 1, [] => none
  | n + 1, c :: rest =>
    if c.utf8Size ≤ n + 1 then
      (splitAtByte? (n + 1 - c.utf8Size) rest).map fun (before, after) => (c :: before, after)
    else none

/-- Splits a text before the first character that starts at or after a byte offset. -/
def splitFromByte : Nat → List Char → List Char × List Char
  | 0, cs => ([], cs)
  | _ + 1, [] => ([], [])
  | n + 1, c :: rest =>
    let (before, after) := splitFromByte (n + 1 - c.utf8Size) rest
    (c :: before, after)

/-- The characters that start at or after byte `start` and before byte `stop`. -/
def slice (start stop : Nat) (cs : List Char) : List Char :=
  (splitFromByte start (splitFromByte stop cs).1).2

@[simp] theorem byteLength_nil : byteLength [] = 0 := rfl

@[simp] theorem byteLength_cons (c : Char) (cs : List Char) :
    byteLength (c :: cs) = c.utf8Size + byteLength cs := rfl

@[simp] theorem byteLength_append (a b : List Char) :
    byteLength (a ++ b) = byteLength a + byteLength b := by
  induction a with
  | nil => simp
  | cons c a ih => simp [ih, Nat.add_assoc]

theorem byteLength_toList (s : String) : byteLength s.toList = s.utf8ByteSize := by
  have h : ∀ cs : List Char, byteLength cs = (String.ofList cs).utf8ByteSize := by
    intro cs
    induction cs with
    | nil => rfl
    | cons c cs ih => simp [String.ofList_cons, ih]
  simpa using h s.toList

theorem splitAtByte?_eq_some_iff {n : Nat} {cs before after : List Char} :
    splitAtByte? n cs = some (before, after) ↔ cs = before ++ after ∧ byteLength before = n := by
  have pos : ∀ c : Char, 0 < c.utf8Size := Char.utf8Size_pos
  fun_induction splitAtByte? n cs generalizing before with
  | case1 cs =>
    constructor
    · intro h
      simp only [Option.some.injEq, Prod.mk.injEq] at h
      simp [← h.1, h.2]
    · rintro ⟨rfl, h⟩
      cases before with
      | nil => rfl
      | cons c b => have := pos c; simp at h; omega
  | case2 n => cases before <;> simp
  | case3 n c rest hc ih =>
    simp only [Option.map_eq_some_iff, Prod.mk.injEq, Prod.exists]
    constructor
    · rintro ⟨b, a, h, rfl, rfl⟩
      obtain ⟨rfl, hb⟩ := ih.1 h
      exact ⟨rfl, by rw [byteLength_cons]; omega⟩
    · rintro ⟨h, hb⟩
      cases before with
      | nil => simp at hb
      | cons d b =>
        simp only [List.cons_append, List.cons.injEq] at h
        obtain ⟨rfl, rfl⟩ := h
        exact ⟨b, after, ih.2 ⟨rfl, by rw [byteLength_cons] at hb; omega⟩, rfl, rfl⟩
  | case4 n c rest hc =>
    simp only [reduceCtorEq, false_iff, not_and]
    intro h hb
    cases before with
    | nil => simp at hb
    | cons d b =>
      simp only [List.cons_append, List.cons.injEq] at h
      obtain ⟨rfl, -⟩ := h
      rw [byteLength_cons] at hb
      omega

theorem splitFromByte_append (n : Nat) (cs : List Char) :
    (splitFromByte n cs).1 ++ (splitFromByte n cs).2 = cs := by
  fun_induction splitFromByte n cs <;> simp_all

end Reflector.Text
