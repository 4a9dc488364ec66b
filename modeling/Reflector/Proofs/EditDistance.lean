import Reflector.Text.EditDistance
/-!
# The distance counts single edits

The rows of the computation hold the costs of aligning initial parts of the two lists from their ends.
A cost obeys the same recursion when it is read from the front, where a single edit changes it by at
most one; so it is the least number of single edits from one list to the other.
-/

namespace Reflector.Text

variable {α : Type}

/-- One insertion, deletion or substitution of a single element. -/
inductive SingleEdit : List α → List α → Prop
  | insert (front back : List α) (y : α) : SingleEdit (front ++ back) (front ++ y :: back)
  | delete (front back : List α) (x : α) : SingleEdit (front ++ x :: back) (front ++ back)
  | substitute (front back : List α) (x y : α) :
      SingleEdit (front ++ x :: back) (front ++ y :: back)

/-- So many single edits lead from the first list to the second. -/
inductive Edits : Nat → List α → List α → Prop
  | refl (xs : List α) : Edits 0 xs xs
  | step {n : Nat} {xs ys zs : List α} : SingleEdit xs ys → Edits n ys zs → Edits (n + 1) xs zs

namespace SingleEdit

theorem cons {xs ys : List α} (h : SingleEdit xs ys) (z : α) : SingleEdit (z :: xs) (z :: ys) := by
  cases h with
  | insert front back y => exact insert (z :: front) back y
  | delete front back x => exact delete (z :: front) back x
  | substitute front back x y => exact substitute (z :: front) back x y

theorem reverse {xs ys : List α} (h : SingleEdit xs ys) : SingleEdit xs.reverse ys.reverse := by
  cases h with
  | insert front back y => simpa using insert back.reverse front.reverse y
  | delete front back x => simpa using delete back.reverse front.reverse x
  | substitute front back x y => simpa using substitute back.reverse front.reverse x y

end SingleEdit

namespace Edits

variable {n : Nat} {xs ys : List α}

theorem cons (h : Edits n xs ys) (z : α) : Edits n (z :: xs) (z :: ys) := by
  induction h with
  | refl xs => exact refl (z :: xs)
  | step hstep _ ih => exact step (hstep.cons z) ih

theorem reverse (h : Edits n xs ys) : Edits n xs.reverse ys.reverse := by
  induction h with
  | refl xs => exact refl xs.reverse
  | step hstep _ ih => exact step hstep.reverse ih

private theorem insert_head (h : Edits n xs ys) (y : α) : Edits (n + 1) xs (y :: ys) :=
  step (.insert [] xs y) (h.cons y)

private theorem delete_head (h : Edits n xs ys) (x : α) : Edits (n + 1) (x :: xs) ys :=
  step (.delete [] xs x) h

private theorem inserts (ys : List α) : Edits ys.length [] ys := by
  induction ys with
  | nil => exact refl []
  | cons y ys ih => exact ih.insert_head y

private theorem deletes (xs : List α) : Edits xs.length xs [] := by
  induction xs with
  | nil => exact refl []
  | cons x xs ih => exact ih.delete_head x

end Edits

variable [DecidableEq α]

/-- The least cost of aligning two lists element by element from the front, where an element without
a counterpart costs one and so does a pair of different elements. -/
def alignmentCost : List α → List α → Nat
  | [], ys => ys.length
  | xs, [] => xs.length
  | x :: xs, y :: ys =>
    min (min (alignmentCost xs (y :: ys) + 1) (alignmentCost (x :: xs) ys + 1))
      (alignmentCost xs ys + if x = y then 0 else 1)

@[simp] private theorem alignmentCost_nil_right (xs : List α) : alignmentCost xs [] = xs.length := by
  cases xs <;> simp [alignmentCost]

@[simp] private theorem alignmentCost_nil_left (ys : List α) : alignmentCost [] ys = ys.length := by
  simp [alignmentCost]

private theorem alignmentCost_cons_cons (x y : α) (xs ys : List α) :
    alignmentCost (x :: xs) (y :: ys) =
      min (min (alignmentCost xs (y :: ys) + 1) (alignmentCost (x :: xs) ys + 1))
        (alignmentCost xs ys + if x = y then 0 else 1) := by
  rw [alignmentCost]

@[simp] private theorem alignmentCost_self (xs : List α) : alignmentCost xs xs = 0 := by
  induction xs with
  | nil => rw [alignmentCost_nil_left, List.length_nil]
  | cons x xs ih => simp [alignmentCost_cons_cons, ih]

private theorem alignmentCost_cons_left_le (x : α) (xs ys : List α) :
    alignmentCost (x :: xs) ys ≤ alignmentCost xs ys + 1 := by
  cases ys with
  | nil => simp
  | cons y ys => rw [alignmentCost_cons_cons]; omega

private theorem alignmentCost_cons_right_le (xs : List α) (y : α) (ys : List α) :
    alignmentCost xs (y :: ys) ≤ alignmentCost xs ys + 1 := by
  cases xs with
  | nil => simp
  | cons x xs => rw [alignmentCost_cons_cons]; omega

private theorem alignmentCost_le_cons_left (x : α) (xs ys : List α) :
    alignmentCost xs ys ≤ alignmentCost (x :: xs) ys + 1 := by
  induction ys with
  | nil => simp only [alignmentCost_nil_right, List.length_cons]; omega
  | cons y ys ih =>
    have hright := alignmentCost_cons_right_le xs y ys
    rw [alignmentCost_cons_cons]
    omega

private theorem alignmentCost_substitute_le (x y : α) (xs ys : List α) :
    alignmentCost (x :: xs) ys ≤ alignmentCost (y :: xs) ys + 1 := by
  induction ys with
  | nil => simp
  | cons z ys ih =>
    have hcost : (if x = z then 0 else 1) ≤ 1 := by split <;> omega
    rw [alignmentCost_cons_cons, alignmentCost_cons_cons]
    omega

/-- What changes costs by at most one still does so behind a common first element. -/
private theorem alignmentCost_cons_le {xs xs' : List α}
    (h : ∀ ys, alignmentCost xs ys ≤ alignmentCost xs' ys + 1) (z : α) (ys : List α) :
    alignmentCost (z :: xs) ys ≤ alignmentCost (z :: xs') ys + 1 := by
  induction ys with
  | nil =>
    have hnil := h []
    simp only [alignmentCost_nil_right] at hnil
    simp only [alignmentCost_nil_right, List.length_cons]
    omega
  | cons y ys ih =>
    have hhead := h (y :: ys)
    have htail := h ys
    rw [alignmentCost_cons_cons, alignmentCost_cons_cons]
    omega

private theorem alignmentCost_append_le {xs xs' : List α}
    (h : ∀ ys, alignmentCost xs ys ≤ alignmentCost xs' ys + 1) (front ys : List α) :
    alignmentCost (front ++ xs) ys ≤ alignmentCost (front ++ xs') ys + 1 := by
  induction front generalizing ys with
  | nil => exact h ys
  | cons z front ih => exact alignmentCost_cons_le ih z ys

private theorem SingleEdit.alignmentCost_le {xs xs' : List α} (h : SingleEdit xs xs') (ys : List α) :
    alignmentCost xs ys ≤ alignmentCost xs' ys + 1 := by
  cases h with
  | insert front back y => exact alignmentCost_append_le (alignmentCost_le_cons_left y back) front ys
  | delete front back x => exact alignmentCost_append_le (alignmentCost_cons_left_le x back) front ys
  | substitute front back x y =>
    exact alignmentCost_append_le (alignmentCost_substitute_le x y back) front ys

private theorem Edits.alignmentCost_le {n : Nat} {xs ys : List α} (h : Edits n xs ys) :
    alignmentCost xs ys ≤ n := by
  induction h with
  | refl xs => exact Nat.le_of_eq (alignmentCost_self xs)
  | @step n xs xs' ys hstep _ ih => exact Nat.le_trans (hstep.alignmentCost_le ys) (by omega)

private theorem edits_alignmentCost (xs ys : List α) : Edits (alignmentCost xs ys) xs ys := by
  fun_induction alignmentCost xs ys with
  | case1 ys => exact .inserts ys
  | case2 xs _ => exact .deletes xs
  | case3 x xs y ys hdelete hinsert hpair =>
    have hsubstitute : Edits (alignmentCost xs ys + if x = y then 0 else 1) (x :: xs) (y :: ys) := by
      by_cases hxy : x = y
      · subst hxy
        simpa using hpair.cons x
      · rw [if_neg hxy]
        exact .step (.substitute [] xs x y) (hpair.cons y)
    have hindel : Edits (min (alignmentCost xs (y :: ys) + 1) (alignmentCost (x :: xs) ys + 1))
        (x :: xs) (y :: ys) := by
      rcases Nat.le_total (alignmentCost xs (y :: ys) + 1) (alignmentCost (x :: xs) ys + 1) with h | h
      · rw [Nat.min_eq_left h]
        exact hdelete.delete_head x
      · rw [Nat.min_eq_right h]
        exact hinsert.insert_head y
    rcases Nat.le_total (min (alignmentCost xs (y :: ys) + 1) (alignmentCost (x :: xs) ys + 1))
        (alignmentCost xs ys + if x = y then 0 else 1) with h | h
    · rw [Nat.min_eq_left h]
      exact hindel
    · rw [Nat.min_eq_right h]
      exact hsubstitute

/-- The part of a row from some place on. Both lists are turned around: `xs` is what the row is for,
`done` what lies before the place, and `ys` what is still to come. -/
def costs (xs done : List α) : List α → List Nat
  | [] => [alignmentCost xs done]
  | y :: ys => alignmentCost xs done :: costs xs (y :: done) ys

private theorem costs_eq_cons (xs done ys : List α) :
    costs xs done ys = alignmentCost xs done :: (costs xs done ys).tail := by
  cases ys <;> rfl

private theorem fillRow_costs (x : α) (xs done ys : List α) :
    fillRow x (alignmentCost (x :: xs) done) ys (costs xs done ys) =
      (costs (x :: xs) done ys).tail := by
  induction ys generalizing done with
  | nil => rfl
  | cons y ys ih =>
    calc fillRow x (alignmentCost (x :: xs) done) (y :: ys) (costs xs done (y :: ys))
        = alignmentCost (x :: xs) (y :: done) ::
            fillRow x (alignmentCost (x :: xs) (y :: done)) ys (costs xs (y :: done) ys) := by
          rw [costs, costs_eq_cons xs (y :: done) ys, fillRow, alignmentCost_cons_cons]
      _ = costs (x :: xs) (y :: done) ys := by rw [ih, ← costs_eq_cons]

private theorem nextRow_costs (x : α) (xs ys : List α) :
    nextRow ys (costs xs [] ys) x = costs (x :: xs) [] ys := by
  have hfirst : (costs xs [] ys).headD 0 + 1 = alignmentCost (x :: xs) [] := by
    rw [costs_eq_cons]
    simp
  rw [nextRow, hfirst, fillRow_costs, ← costs_eq_cons]

private theorem foldl_nextRow_costs (xs before ys : List α) :
    xs.foldl (nextRow ys) (costs before [] ys) = costs (xs.reverse ++ before) [] ys := by
  induction xs generalizing before with
  | nil => rfl
  | cons x xs ih => rw [List.foldl_cons, nextRow_costs, ih]; simp

private theorem costs_nil (done ys : List α) :
    costs [] done ys = List.range' done.length (ys.length + 1) := by
  induction ys generalizing done with
  | nil => simp [costs]
  | cons y ys ih => simp [costs, ih, List.range'_succ]

private theorem getLastD_costs (xs done ys : List α) :
    (costs xs done ys).getLastD 0 = alignmentCost xs (ys.reverse ++ done) := by
  induction ys generalizing done with
  | nil => rfl
  | cons y ys ih =>
    have htail := ih (y :: done)
    rw [costs_eq_cons, List.getLastD_cons] at htail
    rw [costs, List.getLastD_cons, costs_eq_cons, List.getLastD_cons, htail]
    simp

private theorem editDistance_eq_alignmentCost (xs ys : List α) :
    editDistance xs ys = alignmentCost xs.reverse ys.reverse := by
  have hfirst : List.range (ys.length + 1) = costs [] [] ys := by
    rw [costs_nil, List.range_eq_range', List.length_nil]
  rw [editDistance, hfirst, foldl_nextRow_costs, getLastD_costs, List.append_nil, List.append_nil]

theorem edits_editDistance (xs ys : List α) : Edits (editDistance xs ys) xs ys := by
  rw [editDistance_eq_alignmentCost]
  simpa using (edits_alignmentCost xs.reverse ys.reverse).reverse

theorem Edits.editDistance_le {n : Nat} {xs ys : List α} (h : Edits n xs ys) :
    editDistance xs ys ≤ n := by
  rw [editDistance_eq_alignmentCost]
  exact h.reverse.alignmentCost_le

/-- The distance is the least number of insertions, deletions and substitutions of single elements
that lead from one list to the other. -/
theorem editDistance_isLeast (xs ys : List α) :
    Edits (editDistance xs ys) xs ys ∧ ∀ n, Edits n xs ys → editDistance xs ys ≤ n :=
  ⟨edits_editDistance xs ys, fun _ => Edits.editDistance_le⟩

end Reflector.Text
