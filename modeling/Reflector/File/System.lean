import Reflector.File.Tree

namespace Reflector

/-- The operations on files and directories, each named by its path. -/
class FileSystem (m : Type → Type) where
  read : String → m (Except FileError String)
  write : String → String → m (Except FileError Unit)
  /-- Makes a new directory in one that exists. -/
  makeDirectory : String → m (Except FileError Unit)
  isFile : String → m Bool
  isDirectory : String → m Bool

/-- What works on a tree of files and directories. -/
abbrev TreeState := StateM FileTree

/-- Takes over the changed tree, or leaves the tree as it is if the change fails. -/
def TreeState.change (f : FileTree → Except FileError FileTree) :
    TreeState (Except FileError Unit) :=
  fun tree =>
    match f tree with
    | .ok changed => (.ok (), changed)
    | .error error => (.error error, tree)

instance : FileSystem TreeState where
  read path := fun tree => (tree.read path, tree)
  write path text := TreeState.change (·.write path text.toUTF8)
  makeDirectory path := TreeState.change (·.makeDirectory path)
  isFile path := fun tree =>
    (match tree.find path with | .ok (.file _) => true | _ => false, tree)
  isDirectory path := fun tree =>
    (match tree.find path with | .ok .directory => true | _ => false, tree)

variable {m : Type → Type} [Monad m] [FileSystem m]

def makeDirectoriesFrom : List String → m (Except FileError Unit)
  | [] => return .ok ()
  | path :: outer => do
    let retained := fun (result : Except FileError Unit) => do
      match result with
      | .ok () => return .ok ()
      | .error error => return if ← FileSystem.isDirectory path then .ok () else .error error
    match ← FileSystem.makeDirectory path with
    | .error .missing =>
      match ← makeDirectoriesFrom outer with
      | .ok () => retained (← FileSystem.makeDirectory path)
      | .error error => return .error error
    | result => retained result

/-- Makes a directory and all that it is in, as far as they do not exist. -/
def makeDirectories (path : String) : m (Except FileError Unit) :=
  makeDirectoriesFrom (Path.outward path)

end Reflector
