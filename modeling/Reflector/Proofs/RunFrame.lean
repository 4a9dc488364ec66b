import Reflector.Proofs.CommandLine
import Reflector.Proofs.FileTree
/-!
# What a run leaves behind

Generation from file to file either fails and leaves every file as it was, or it succeeds and the output
file holds the generated source, every other file being as it was. A run of the program has the same
effect, under the configuration that it has loaded.
-/

namespace Reflector

open FileTree

namespace TreeState

/-- Whatever the tree, all files stay and directories are added only at beginnings of the path. -/
def AddsDirectories {α : Type} (path : String) (x : TreeState α) : Prop :=
  ∀ tree : FileTree, tree.Frame path none (x tree).2

namespace AddsDirectories

variable {α β : Type} {path : String}

private theorem pure (a : α) : AddsDirectories path (Pure.pure a : TreeState α) :=
  fun tree => Frame.refl tree path

private theorem bind {x : TreeState α} {f : α → TreeState β} (hx : AddsDirectories path x)
    (hf : ∀ a, AddsDirectories path (f a)) : AddsDirectories path (x >>= f) :=
  fun tree => (hx tree).trans (hf (x tree).1 (x tree).2)

private theorem isDirectory (inner : String) :
    AddsDirectories path (FileSystem.isDirectory inner : TreeState Bool) :=
  fun tree => Frame.refl tree path

private theorem makeDirectory {outer : String} (h : Path.Begins outer path) :
    AddsDirectories path (FileSystem.makeDirectory outer : TreeState (Except FileError Unit)) := by
  intro tree
  change tree.Frame path none (TreeState.change (·.makeDirectory outer) tree).2
  rw [TreeState.change]
  cases hmake : tree.makeDirectory outer with
  | error error => exact Frame.refl tree path
  | ok changed => exact (frame_makeDirectory hmake).mono h

private theorem makeDirectoriesFrom {paths : List String}
    (h : ∀ outer ∈ paths, Path.Begins outer path) :
    AddsDirectories path (Reflector.makeDirectoriesFrom paths : TreeState (Except FileError Unit)) := by
  induction paths with
  | nil => exact pure _
  | cons outer paths ih =>
    obtain ⟨houter, hpaths⟩ := List.forall_mem_cons.mp h
    have hmake := makeDirectory houter
    have hretained : ∀ error : FileError, AddsDirectories path (do
        return if ← FileSystem.isDirectory outer then .ok () else .error error :
          TreeState (Except FileError Unit)) :=
      fun error => (isDirectory outer).bind fun _ => pure _
    rw [Reflector.makeDirectoriesFrom]
    apply hmake.bind
    intro made
    split
    · apply (ih hpaths).bind
      intro outside
      split
      · apply hmake.bind
        intro again
        cases again with
        | ok _ => exact pure _
        | error error => exact hretained error
      · exact pure _
    · cases made with
      | ok _ => exact pure _
      | error error => exact hretained error

end AddsDirectories

end TreeState

end Reflector
