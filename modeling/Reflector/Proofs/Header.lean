import Mathlib.Data.Option.Basic
import Reflector.Class.Header
import Reflector.Proofs.Search
import Reflector.Proofs.Trim

namespace Reflector

open Text

variable {keywords : List (List Char)}

theorem mem_alternatives {names : List (List Char)} {name : List Char}
    (h : name ∈ alternatives names) : name = [] ∨ name ∈ names := by
  unfold alternatives at h
  split at h
  · exact Or.inl (List.mem_singleton.mp h)
  · exact Or.inr h

theorem headerOf?_eq_some_iff {left : Option Char} {cs keyword piece rest : List Char} :
    headerOf? left cs keyword = some (piece, rest) ↔
      ∃ run, (∀ c ∈ run, isHeaderChar c = true) ∧ piece = keyword ++ run ++ ['{'] ∧
        cs = keyword ++ (run ++ '{' :: rest) ∧ isWordBoundary left cs.head? = true ∧
        isWordBoundary (keyword.getLast?.or left) (run ++ '{' :: rest).head? = true := by
  simp only [headerOf?, bind, Option.bind_eq_some_iff, pure, Option.ite_none_right_eq_some,
    Option.some.injEq, Prod.mk.injEq, after?_eq_some_iff, Bool.and_eq_true]
  constructor
  · rintro ⟨tail, rfl, behind, hdrop, ⟨hbegin, hend⟩, rfl, rfl⟩
    have htail : tail = tail.takeWhile isHeaderChar ++ '{' :: behind := by
      have hsplit := List.takeWhile_append_dropWhile (p := isHeaderChar) (l := tail)
      rw [hdrop] at hsplit
      exact hsplit.symm
    refine ⟨_, List.all_eq_true.mp List.all_takeWhile, rfl, by rw [← htail], hbegin, ?_⟩
    rwa [← htail]
  · rintro ⟨run, hrun, rfl, rfl, hbegin, hend⟩
    have hbrace : ¬ isHeaderChar '{' = true := by decide
    have hdrop : (run ++ '{' :: rest).dropWhile isHeaderChar = ['{'] ++ rest := by
      rw [List.dropWhile_append_of_pos hrun, List.dropWhile_cons_of_neg hbrace]
      rfl
    have htake : (run ++ '{' :: rest).takeWhile isHeaderChar = run := by
      rw [List.takeWhile_append_of_pos hrun, List.takeWhile_cons_of_neg hbrace, List.append_nil]
    exact ⟨_, rfl, rest, hdrop, ⟨hbegin, hend⟩, by rw [htake], rfl⟩

theorem headerPattern_match {left : Option Char} {cs piece rest : List Char}
    (h : (headerPattern keywords).match? left cs = some (piece, rest)) :
    ∃ keyword ∈ alternatives keywords, ∃ run, (∀ c ∈ run, isHeaderChar c = true) ∧
      piece = keyword ++ run ++ ['{'] := by
  obtain ⟨keyword, hk, h⟩ := List.exists_of_findSome?_eq_some h
  obtain ⟨run, hrun, hpiece, -⟩ := headerOf?_eq_some_iff.mp h
  exact ⟨keyword, hk, run, hrun, hpiece⟩

private theorem brace_not_mem_alternatives (hk : ∀ k ∈ keywords, '{' ∉ k) :
    ∀ keyword ∈ alternatives keywords, '{' ∉ keyword := by
  intro keyword hm
  rcases mem_alternatives hm with rfl | hm
  · exact List.not_mem_nil
  · exact hk keyword hm

private theorem brace_not_mem_front {keyword run : List Char} (hk : '{' ∉ keyword)
    (hrun : ∀ c ∈ run, isHeaderChar c = true) : '{' ∉ keyword ++ run := by
  intro hm
  rcases List.mem_append.mp hm with hm | hm
  · exact hk hm
  · exact absurd (hrun '{' hm) (by decide)

theorem headerPattern_brace (hk : ∀ k ∈ keywords, '{' ∉ k) {left : Option Char}
    {cs piece rest : List Char} (h : (headerPattern keywords).match? left cs = some (piece, rest)) :
    ∃ front, piece = front ++ ['{'] ∧ '{' ∉ front := by
  obtain ⟨keyword, hkeyword, run, hrun, rfl⟩ := headerPattern_match h
  exact ⟨keyword ++ run, rfl, brace_not_mem_front (brace_not_mem_alternatives hk keyword hkeyword) hrun⟩

/-- A header is the same whichever of the keywords it is read with. -/
theorem headerPattern_append (hk : ∀ k ∈ keywords, '{' ∉ k) {left : Option Char}
    {keyword run : List Char} (hkeyword : keyword ∈ keywords) (cs : List Char)
    (hrun : ∀ c ∈ run, isHeaderChar c = true)
    (hbegin : isWordBoundary left (keyword ++ (run ++ '{' :: cs)).head? = true)
    (hend : isWordBoundary (keyword.getLast?.or left) (run ++ '{' :: cs).head? = true) :
    (headerPattern keywords).match? left (keyword ++ (run ++ '{' :: cs)) =
      some (keyword ++ run ++ ['{'], cs) := by
  have hread : headerOf? left (keyword ++ (run ++ '{' :: cs)) keyword =
      some (keyword ++ run ++ ['{'], cs) :=
    headerOf?_eq_some_iff.mpr ⟨run, hrun, rfl, rfl, hbegin, hend⟩
  have hnames : alternatives keywords = keywords := if_neg (List.ne_nil_of_mem hkeyword)
  have hsome : ((headerPattern keywords).match? left (keyword ++ (run ++ '{' :: cs))).isSome = true := by
    change ((alternatives keywords).findSome? _).isSome = true
    rw [hnames, List.findSome?_isSome_iff]
    exact ⟨keyword, hkeyword, by rw [hread]; rfl⟩
  obtain ⟨⟨piece, rest⟩, hfound⟩ := Option.isSome_iff_exists.mp hsome
  obtain ⟨front, rfl, hfront⟩ := headerPattern_brace hk hfound
  have htext : keyword ++ run ++ '{' :: cs = front ++ '{' :: rest := by
    simpa using ((headerPattern keywords).sound hfound).2
  obtain ⟨rfl, rfl⟩ := first_unique htext (brace_not_mem_front (hk keyword hkeyword) hrun) hfront
  exact hfound

private theorem headerOf?_append_right {left : Option Char} {cs keyword : List Char}
    (hk : '{' ∉ keyword) (hcs : '{' ∈ cs) (more : List Char) :
    headerOf? left (cs ++ more) keyword =
      (headerOf? left cs keyword).map fun (piece, rest) => (piece, rest ++ more) := by
  have hhead : ∀ run rest rest' : List Char,
      (run ++ '{' :: rest).head? = (run ++ '{' :: rest').head? := by
    intro run rest rest'
    cases run <;> rfl
  have hbegin : (cs ++ more).head? = cs.head? :=
    List.head?_append_of_ne_nil _ (List.ne_nil_of_mem hcs)
  cases h : headerOf? left cs keyword with
  | some found =>
    obtain ⟨run, hrun, hpiece, htext, hleft, hright⟩ := headerOf?_eq_some_iff.mp h
    refine headerOf?_eq_some_iff.mpr ⟨run, hrun, hpiece, by simp [htext], by rwa [hbegin], ?_⟩
    rwa [hhead run _ found.2]
  | none =>
    rw [Option.map_none, Option.eq_none_iff_forall_ne_some]
    rintro ⟨piece, rest⟩ hfound
    obtain ⟨run, hrun, hpiece, htext, hleft, hright⟩ := headerOf?_eq_some_iff.mp hfound
    rw [← List.append_assoc] at htext
    obtain ⟨e, he, -⟩ := exists_append_of_first htext (brace_not_mem_front hk hrun) hcs
    have hshort : headerOf? left cs keyword = some (piece, e) := by
      refine headerOf?_eq_some_iff.mpr ⟨run, hrun, hpiece, by simp [he], by rwa [← hbegin], ?_⟩
      rwa [hhead run e rest]
    rw [h] at hshort
    contradiction

/-- A text up to an opening brace decides whether a header begins there. -/
theorem headerPattern_append_right (hk : ∀ k ∈ keywords, '{' ∉ k) {left : Option Char}
    {cs : List Char} (hcs : '{' ∈ cs) (more : List Char) :
    (headerPattern keywords).match? left (cs ++ more) =
      ((headerPattern keywords).match? left cs).map fun (piece, rest) => (piece, rest ++ more) := by
  have hnames := brace_not_mem_alternatives hk
  change (alternatives keywords).findSome? (headerOf? left (cs ++ more)) =
    ((alternatives keywords).findSome? (headerOf? left cs)).map _
  generalize alternatives keywords = names at hnames
  induction names with
  | nil => rfl
  | cons name names ih =>
    obtain ⟨hname, hnames⟩ := List.forall_mem_cons.mp hnames
    rw [List.findSome?_cons, List.findSome?_cons, headerOf?_append_right hname hcs, ih hnames]
    cases headerOf? left cs name <;> rfl

theorem headerPattern_left {left : Option Char} (hl : ∀ c ∈ left, isWord c = false)
    (cs : List Char) :
    (headerPattern keywords).match? left cs = (headerPattern keywords).match? none cs := by
  have hb : ∀ right, isWordBoundary left right = isWordBoundary none right := by
    intro right
    cases left with
    | none => rfl
    | some c => exact isWordBoundary_of_not_isWord (hl c rfl) right
  have hk : ∀ keyword, headerOf? left cs keyword = headerOf? none cs keyword := by
    intro keyword
    unfold headerOf?
    cases hlast : keyword.getLast? <;> simp [hb]
  change (alternatives keywords).findSome? (headerOf? left cs) = _
  rw [funext hk]
  rfl

private theorem lastWord?_solid {cs word : List Char} (h : lastWord? cs = some word) :
    word ≠ [] ∧ ∀ c ∈ word, isBlank c = false := by
  unfold lastWord? at h
  split at h
  · contradiction
  · rename_i w hne
    obtain rfl := Option.some.inj h
    refine ⟨by simpa using hne, ?_⟩
    intro c hc
    have := List.all_eq_true.mp
      (List.all_takeWhile (p := fun c => !isBlank c) (l := cs.reverse.dropWhile isBlank)) c
      (List.mem_reverse.mp hc)
    simpa using this

theorem beforeColon?_eq_none {cs : List Char} (h : ':' ∉ cs) (left : Option Char) :
    beforeColon? left cs = none := by
  induction cs generalizing left with
  | nil => rfl
  | cons c cs ih =>
    have hc : c ≠ ':' := fun he => h (he ▸ List.mem_cons_self)
    rw [beforeColon?, if_neg (by simp [hc]), ih fun hm => h (List.mem_cons_of_mem c hm)]
    rfl

theorem lastWord?_append {front word blanks : List Char}
    (hfront : ∀ c ∈ front.getLast?, isBlank c = true) (hne : word ≠ [])
    (hword : ∀ c ∈ word, isBlank c = false) (hblanks : ∀ c ∈ blanks, isBlank c = true) :
    lastWord? (front ++ word ++ blanks) = some word := by
  have hsolid : ∀ c ∈ word.reverse, (!isBlank c) = true := by
    intro c hc
    rw [hword c (List.mem_reverse.mp hc)]
    rfl
  obtain ⟨c, cs, hcons⟩ := List.exists_cons_of_ne_nil (mt List.reverse_eq_nil_iff.mp hne)
  have hdrop : (front ++ word ++ blanks).reverse.dropWhile isBlank =
      word.reverse ++ front.reverse := by
    have hc : isBlank c = false := by simpa [hcons] using hsolid c (by simp [hcons])
    have hreverse : ∀ c ∈ blanks.reverse, isBlank c = true := fun c hc =>
      hblanks c (List.mem_reverse.mp hc)
    rw [List.reverse_append, List.reverse_append, List.dropWhile_append_of_pos hreverse, hcons,
      List.cons_append, List.dropWhile_cons_of_neg (by simp [hc])]
  have hstop : front.reverse.takeWhile (fun c => !isBlank c) = [] := by
    cases hr : front.reverse with
    | nil => rfl
    | cons d ds =>
      have hd : isBlank d = true := hfront d (by rw [← List.head?_reverse, hr]; rfl)
      rw [List.takeWhile_cons_of_neg (by simp [hd])]
  rw [lastWord?, hdrop, List.takeWhile_append_of_pos hsolid, hstop, List.append_nil, hcons]
  show some (c :: cs).reverse = some word
  rw [← hcons, List.reverse_reverse]

theorem headerName_ok {header : List Char} {name : String}
    (h : headerName keywords header = .ok name) :
    name.toList ≠ [] ∧ (∀ c ∈ name.toList, isBlank c = false) ∧ name.toList ∉ keywords := by
  unfold headerName at h
  split at h
  · rename_i word hw
    obtain rfl := Except.ok.inj h
    simp only [headerName?, bind, Option.bind_eq_some_iff, pure, Option.some.injEq,
      Option.guard_eq_some'] at hw
    obtain ⟨w, hlast, _, hfree, rfl⟩ := hw
    obtain ⟨hne, hsolid⟩ := lastWord?_solid hlast
    rw [String.toList_ofList]
    exact ⟨hne, hsolid, by simpa using hfree⟩
  · contradiction

end Reflector
