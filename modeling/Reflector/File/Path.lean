/-!
# Paths

A path is a text whose parts are separated by slashes. Empty parts and single dots lead nowhere, but
the part that a path begins with counts: an empty one makes the path absolute.
-/

namespace Reflector.Path

def parts (path : String) : List String :=
  (path.toList.splitOn '/').map String.ofList

def ofParts (parts : List String) : String :=
  "/".intercalate parts

def isIdle (part : String) : Bool :=
  part == "" || part == "."

def dropIdle (parts : List String) : List String :=
  (parts.reverse.dropWhile isIdle).reverse

/-- The path of the directory that a path is in, idle parts at the end of either being left out. The
empty path and the root are in none. -/
def parent? (path : String) : Option String :=
  match parts path with
  | [] => none
  | first :: others =>
    match dropIdle others with
    | [] => if first = "" then none else some ""
    | inner =>
      let outer := dropIdle inner.dropLast
      if first = "" && outer = [] then some "/" else some (ofParts (first :: outer))

/-- The path of the directory that a path is in, unless that path is empty. -/
def directory? (path : String) : Option String :=
  (parent? path).filter (· ≠ "")

def join (directory name : String) : String :=
  if directory.toList.getLast? = some '/' then directory ++ name else directory ++ "/" ++ name

/-- A path, the path of the directory that it is in, and so on. -/
def outward (path : String) : List String :=
  match directory? path with
  | none => [path]
  | some directory =>
    if directory.length < path.length then path :: outward directory else [path]
termination_by path.length

end Reflector.Path
