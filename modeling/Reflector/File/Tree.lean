import Reflector.Failure
import Reflector.File.Path
/-!
# Trees of files and directories

A tree records what stands at each place, and the place from which relative paths start. A path is
followed part by part, and every part but the last must lead to a directory.
-/

namespace Reflector

/-- The names on the way from the root of a tree to something in it. -/
abbrev Place := List String

inductive Node where
  | file (content : ByteArray)
  | directory

structure FileTree where
  nodes : List (Place × Node) := []
  /-- Where relative paths start. -/
  workingDirectory : Place := []

namespace FileTree

/-- What stands at a place; the root is always a directory. -/
def node? (tree : FileTree) (place : Place) : Option Node :=
  if place = [] then some .directory else tree.nodes.lookup place

def put (tree : FileTree) (place : Place) (node : Node) : FileTree :=
  { tree with nodes := (place, node) :: tree.nodes.filter (·.1 ≠ place) }

/-- What stands below a place, each at its place from there. -/
def below (tree : FileTree) (place : Place) : List (Place × Node) :=
  tree.nodes.filterMap fun (p, node) =>
    if place <+: p && p ≠ place then some (p.drop place.length, node) else none

/-- Follows one part of a path. Whether the place that it leads to is taken is left open. -/
def follow (tree : FileTree) (here : Place) (part : String) : Except FileError Place :=
  match tree.node? here with
  | none => .error .missing
  | some (.file _) => .error .notDirectory
  | some .directory =>
    if Path.isIdle part then .ok here
    else if part = ".." then .ok here.dropLast
    else .ok (here ++ [part])

/-- Follows the parts of a path. -/
def walk (tree : FileTree) (path : String) (parts : List String) : Except FileError Place :=
  let start := if path.toList.head? = some '/' then [] else tree.workingDirectory
  if path = "" then .error .missing else parts.foldlM tree.follow start

def find (tree : FileTree) (path : String) : Except FileError Node := do
  match tree.node? (← tree.walk path (Path.parts path)) with
  | some node => .ok node
  | none => .error .missing

/-- Where a path may put something new. -/
structure Opening where
  /-- The place of an existing directory. -/
  directory : Place
  /-- The last part of the path; it is empty for the root alone. -/
  name : String
  /-- There is a slash behind the last part. -/
  closed : Bool

/-- Follows a path as far as the directory that its last part is to stand in. -/
def opening (tree : FileTree) (path : String) : Except FileError Opening := do
  let parts := Path.parts path
  match parts.reverse.dropWhile (· == "") with
  | [] => return ⟨← tree.walk path [], "", true⟩
  | name :: outer =>
    return ⟨← tree.walk path (outer.reverse ++ [""]), name, parts.getLast? == some ""⟩

/-- The place that an opening stands for, unless its name stands for a directory on the way. -/
def Opening.place? (opening : Opening) : Option Place :=
  if Path.isIdle opening.name || opening.name = ".." then none
  else some (opening.directory ++ [opening.name])

def read (tree : FileTree) (path : String) : Except FileError String := do
  match ← tree.find path with
  | .directory => .error .isDirectory
  | .file content =>
    match String.fromUTF8? content with
    | some text => .ok text
    | none => .error .notText

def write (tree : FileTree) (path : String) (content : ByteArray) : Except FileError FileTree := do
  let opening ← tree.opening path
  match opening.place? with
  | none => .error .isDirectory
  | some place =>
    match opening.closed, tree.node? place with
    | true, _ | _, some .directory => .error .isDirectory
    | _, _ => .ok (tree.put place (.file content))

def makeDirectory (tree : FileTree) (path : String) : Except FileError FileTree := do
  let opening ← tree.opening path
  match opening.place? with
  | none => .error .taken
  | some place =>
    if (tree.node? place).isSome then .error .taken
    else .ok (tree.put place .directory)

@[simp] theorem node?_root (tree : FileTree) : tree.node? [] = some .directory := by
  simp [node?]

theorem node?_put_self {tree : FileTree} {place : Place} {node : Node} (h : place ≠ []) :
    (tree.put place node).node? place = some node := by
  simp [node?, put, h]

theorem node?_put_of_ne {tree : FileTree} {place other : Place} {node : Node} (h : other ≠ place) :
    (tree.put place node).node? other = tree.node? other := by
  have hf : ∀ nodes : List (Place × Node),
      (nodes.filter (·.1 ≠ place)).lookup other = nodes.lookup other := by
    intro nodes
    induction nodes with
    | nil => rfl
    | cons n nodes ih =>
      obtain ⟨p, node⟩ := n
      by_cases hp : p = place
      · have ho : (other == p) = false := by simpa [hp] using h
        simpa [hp, List.lookup_cons, hp ▸ ho] using ih
      · simp only [List.filter_cons, ne_eq, hp, not_false_eq_true, decide_true, if_true,
          List.lookup_cons]
        split
        · rfl
        · simpa using ih
  by_cases ho : other = []
  · simp [node?, ho]
  · have hb : (other == place) = false := by simpa using h
    simp only [node?, put, ho, if_false, List.lookup_cons, hb]
    exact hf tree.nodes

end FileTree

end Reflector
