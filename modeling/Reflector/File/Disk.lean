import Reflector.File.System

namespace Reflector

def FileError.ofSystem : IO.Error → FileError
  | .noFileOrDirectory .. => .missing
  | .alreadyExists .. => .taken
  | .inappropriateType _ code _ => if code = 21 then .isDirectory else .notDirectory
  | error => .other (toString error)

/-- Carries out an operation and turns what the system throws into a result. -/
def attempt {α : Type} (action : IO α) : IO (Except FileError α) := do
  match ← action.toBaseIO with
  | .ok a => return .ok a
  | .error error => return .error (FileError.ofSystem error)

instance : FileSystem IO where
  read path := do
    match ← attempt (IO.FS.readBinFile path) with
    | .error error => return .error error
    | .ok content =>
      match String.fromUTF8? content with
      | some text => return .ok text
      | none => return .error .notText
  write path text := attempt (IO.FS.writeFile path text)
  makeDirectory path := attempt (IO.FS.createDir path)
  isFile path := do
    match ← (System.mkFilePath [path]).metadata.toBaseIO with
    | .ok data => return data.type == .file
    | .error _ => return false
  isDirectory path := (System.mkFilePath [path]).isDir

end Reflector
