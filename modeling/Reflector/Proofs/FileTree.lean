import Reflector.File.Tree
import Reflector.Proofs.Path
/-!
# What a change of a tree leaves alone

A new directory is made where nothing stands, and a file is written where no directory stands. Hence all
directories stay, every path that leads somewhere goes on leading there, and of the files only the one
that is written can change.
-/

namespace Reflector.FileTree

variable {tree tree' : FileTree} {path : String}

private theorem exists_of_bind_eq_ok {α β : Type} {x : Except FileError α}
    {f : α → Except FileError β} {b : β} (h : x >>= f = .ok b) : ∃ a, x = .ok a ∧ f a = .ok b := by
  cases x with
  | error error => contradiction
  | ok a => exact ⟨a, rfl, h⟩

structure Keeps (tree tree' : FileTree) : Prop where
  workingDirectory : tree'.workingDirectory = tree.workingDirectory
  directories : ∀ place, tree.node? place = some .directory → tree'.node? place = some .directory

private theorem follow_eq_ok_iff {here place : Place} {part : String} :
    tree.follow here part = .ok place ↔ tree.node? here = some .directory ∧
      place = if Path.isIdle part then here else if part = ".." then here.dropLast
        else here ++ [part] := by
  rw [follow]
  cases hnode : tree.node? here with
  | none => simp
  | some node =>
    cases node with
    | file content => simp
    | directory =>
      simp only [true_and]
      split
      · simp [eq_comm]
      · split <;> simp [eq_comm]

namespace Keeps

theorem refl (tree : FileTree) : tree.Keeps tree :=
  ⟨rfl, fun _ h => h⟩

theorem trans {tree'' : FileTree} (h : tree.Keeps tree') (h' : tree'.Keeps tree'') :
    tree.Keeps tree'' :=
  ⟨h'.workingDirectory.trans h.workingDirectory,
    fun place hplace => h'.directories place (h.directories place hplace)⟩

theorem put {place : Place} {node : Node} (hplace : place ≠ [])
    (h : tree.node? place = some .directory → node = .directory) : tree.Keeps (tree.put place node) := by
  refine ⟨rfl, ?_⟩
  intro other hother
  by_cases he : other = place
  · subst he
    rw [node?_put_self hplace, h hother]
  · rw [node?_put_of_ne he, hother]

private theorem follow (h : tree.Keeps tree') {here place : Place} {part : String}
    (hfollow : tree.follow here part = .ok place) : tree'.follow here part = .ok place := by
  rw [follow_eq_ok_iff] at hfollow ⊢
  exact ⟨h.directories here hfollow.1, hfollow.2⟩

private theorem foldlM_follow (h : tree.Keeps tree') {here place : Place} {parts : List String}
    (hwalk : parts.foldlM tree.follow here = .ok place) :
    parts.foldlM tree'.follow here = .ok place := by
  induction parts generalizing here with
  | nil => exact hwalk
  | cons part parts ih =>
    rw [List.foldlM_cons] at hwalk ⊢
    obtain ⟨next, hfirst, hmore⟩ := exists_of_bind_eq_ok hwalk
    rw [h.follow hfirst]
    exact ih hmore

private theorem walk (h : tree.Keeps tree') {parts : List String} {place : Place}
    (hwalk : tree.walk path parts = .ok place) : tree'.walk path parts = .ok place := by
  rw [FileTree.walk] at hwalk ⊢
  rw [h.workingDirectory]
  split at hwalk
  · contradiction
  · rename_i hpath
    rw [if_neg hpath]
    exact h.foldlM_follow hwalk

end Keeps

private theorem walk_append {outer inner : List String} {place : Place}
    (h : tree.walk path (outer ++ inner) = .ok place) :
    ∃ here, tree.walk path outer = .ok here ∧ inner.foldlM tree.follow here = .ok place := by
  rw [walk] at h ⊢
  split at h
  · contradiction
  · rename_i hpath
    rw [List.foldlM_append] at h
    obtain ⟨here, houter, hinner⟩ := exists_of_bind_eq_ok h
    exact ⟨here, by rw [if_neg hpath, houter], hinner⟩

private theorem walk_append_of_ok {outer inner : List String} {here : Place}
    (h : tree.walk path outer = .ok here) :
    tree.walk path (outer ++ inner) = inner.foldlM tree.follow here := by
  rw [walk] at h ⊢
  split at h
  · contradiction
  · rename_i hpath
    rw [if_neg hpath, List.foldlM_append, h]
    rfl

private theorem foldlM_follow_empty {place : Place} (h : tree.node? place = some .directory)
    {parts : List String} (hparts : ∀ part ∈ parts, part = "") :
    parts.foldlM tree.follow place = .ok place := by
  induction parts with
  | nil => rfl
  | cons part parts ih =>
    obtain ⟨hpart, hmore⟩ := List.forall_mem_cons.mp hparts
    have hstay : tree.follow place part = .ok place :=
      follow_eq_ok_iff.mpr ⟨h, by simp [hpart, Path.isIdle]⟩
    rw [List.foldlM_cons, hstay]
    exact ih hmore

/-- What an opening with a place of its own stands for: the path leads to a directory, then to a name
in it, and goes on with empty parts only. -/
private theorem exists_of_opening {opening : Opening} {place : Place}
    (h : tree.opening path = .ok opening)
    (hplace : opening.place? = some place) :
    ∃ outer empty, Path.parts path = outer ++ [opening.name] ++ empty ∧ (∀ part ∈ empty, part = "") ∧
      (opening.closed = false → empty = []) ∧ place = opening.directory ++ [opening.name] ∧
      tree.walk path (outer ++ [""]) = .ok opening.directory ∧
      Path.isIdle opening.name = false ∧ opening.name ≠ ".." := by
  rw [FileTree.opening] at h
  cases hrest : (Path.parts path).reverse.dropWhile (· == "") with
  | nil =>
    rw [hrest] at h
    obtain ⟨directory, -, hopening⟩ := exists_of_bind_eq_ok h
    obtain rfl := Except.ok.inj hopening
    simp [Opening.place?, Path.isIdle] at hplace
  | cons name outer =>
    rw [hrest] at h
    obtain ⟨directory, hwalk, hopening⟩ := exists_of_bind_eq_ok h
    obtain rfl := Except.ok.inj hopening
    have hparts : Path.parts path = outer.reverse ++ [name] ++
        ((Path.parts path).reverse.takeWhile (· == "")).reverse := by
      have hsplit := List.takeWhile_append_dropWhile (p := (· == "")) (l := (Path.parts path).reverse)
      rw [hrest] at hsplit
      simpa using (congrArg List.reverse hsplit).symm
    rw [Opening.place?] at hplace
    split at hplace
    · contradiction
    · rename_i hname
      simp only [Bool.or_eq_true, decide_eq_true_eq, not_or, Bool.not_eq_true] at hname
      refine ⟨outer.reverse, _, hparts, ?_, ?_, (Option.some.inj hplace).symm, hwalk, hname⟩
      · intro part hm
        have hall := List.all_eq_true.mp
          (List.all_takeWhile (p := (· == "")) (l := (Path.parts path).reverse))
        simpa using hall part (List.mem_reverse.mp hm)
      · intro hopen
        rw [← List.head?_reverse] at hopen
        cases hreverse : (Path.parts path).reverse with
        | nil => rfl
        | cons last front =>
          have hlast : last ≠ "" := by simpa [hreverse] using hopen
          simp [hlast]

/-- In a tree that keeps all directories, the path leads to the place of its opening. -/
private theorem Keeps.walk_of_opening {opening : Opening} {place : Place} (hkeeps : tree.Keeps tree')
    (h : tree.opening path = .ok opening) (hplace : opening.place? = some place)
    (hend : opening.closed = false ∨ tree'.node? place = some .directory) :
    tree'.walk path (Path.parts path) = .ok place := by
  obtain ⟨outer, empty, hparts, hempty, hopen, rfl, hwalk, hname, hup⟩ := exists_of_opening h hplace
  obtain ⟨here, houter, hstay⟩ := walk_append (hkeeps.walk hwalk)
  rw [List.foldlM_cons] at hstay
  obtain ⟨next, hnext, hdone⟩ := exists_of_bind_eq_ok hstay
  obtain rfl := Except.ok.inj hdone
  obtain ⟨hdirectory, hsame⟩ := follow_eq_ok_iff.mp hnext
  have hhere : opening.directory = here := hsame.trans (if_pos rfl)
  have hfollow : tree'.follow here opening.name = .ok (opening.directory ++ [opening.name]) :=
    follow_eq_ok_iff.mpr ⟨hdirectory, by rw [if_neg (by simp [hname]), if_neg hup, hhere]⟩
  rw [hparts, List.append_assoc, walk_append_of_ok houter, List.singleton_append, List.foldlM_cons,
    hfollow]
  rcases hend with hclosed | hplace
  · rw [hopen hclosed]
    rfl
  · exact foldlM_follow_empty hplace hempty

/-- The tree becomes the other one while only directories are added, each at a beginning of the path,
and no file changes but the one at the written place, if there is one. -/
structure Frame (tree : FileTree) (path : String) (written : Option Place) (tree' : FileTree) :
    Prop where
  keeps : tree.Keeps tree'
  added : ∀ place, tree'.node? place = some .directory → tree.node? place = some .directory ∨
    ∃ outer, Path.Begins outer path ∧ tree'.walk outer (Path.parts outer) = .ok place
  files : ∀ place, some place ≠ written → ∀ content,
    tree'.node? place = some (.file content) ↔ tree.node? place = some (.file content)

namespace Frame

variable {written : Option Place}

theorem refl (tree : FileTree) (path : String) : tree.Frame path none tree where
  keeps := .refl tree
  added _ h := Or.inl h
  files _ _ _ := Iff.rfl

theorem trans {tree'' : FileTree} (h : tree.Frame path none tree')
    (h' : tree'.Frame path written tree'') : tree.Frame path written tree'' where
  keeps := h.keeps.trans h'.keeps
  added := by
    intro place hplace
    rcases h'.added place hplace with hold | hnew
    · rcases h.added place hold with hold | ⟨outer, hbegins, hwalk⟩
      · exact Or.inl hold
      · exact Or.inr ⟨outer, hbegins, h'.keeps.walk hwalk⟩
    · exact Or.inr hnew
  files := by
    intro place hplace content
    rw [h'.files place hplace, h.files place (by simp)]

theorem mono {whole : String} (h : tree.Frame path written tree') (hpath : Path.Begins path whole) :
    tree.Frame whole written tree' where
  keeps := h.keeps
  added := by
    intro place hplace
    rcases h.added place hplace with hold | ⟨outer, hbegins, hwalk⟩
    · exact Or.inl hold
    · exact Or.inr ⟨outer, hbegins.trans hpath, hwalk⟩
  files := h.files

end Frame

private theorem ne_nil_of_place? {opening : Opening} {place : Place}
    (h : opening.place? = some place) : place ≠ [] := by
  rw [Opening.place?] at h
  split at h
  · contradiction
  · rw [← Option.some.inj h]
    simp

theorem frame_makeDirectory (h : tree.makeDirectory path = .ok tree') :
    tree.Frame path none tree' := by
  rw [makeDirectory] at h
  obtain ⟨opening, hopening, hmake⟩ := exists_of_bind_eq_ok h
  cases hplace : opening.place? with
  | none => simp [hplace] at hmake
  | some place =>
    simp only [hplace] at hmake
    split at hmake
    · contradiction
    · rename_i hfree
      obtain rfl := Except.ok.inj hmake
      have hne := ne_nil_of_place? hplace
      have hself : (tree.put place .directory).node? place = some .directory := node?_put_self hne
      have hkeeps : tree.Keeps (tree.put place .directory) := .put hne fun _ => rfl
      refine ⟨hkeeps, ?_, ?_⟩
      · intro other hother
        by_cases he : other = place
        · subst he
          exact Or.inr ⟨path, .refl path, hkeeps.walk_of_opening hopening hplace (Or.inr hself)⟩
        · rw [node?_put_of_ne he] at hother
          exact Or.inl hother
      · intro other _ content
        by_cases he : other = place
        · subst he
          have hnone : tree.node? other = none := by simpa using hfree
          simp [hself, hnone]
        · rw [node?_put_of_ne he]

end Reflector.FileTree
