import Reflector.Config.Reading
import Reflector.File.System

namespace Reflector

variable {m : Type → Type} [Monad m] [FileSystem m]

/-- The path of the configuration file beside a source file, if there is one. -/
def configBeside? (input : String) : m (Option String) := do
  let path := Path.join ((Path.directory? input).getD ".") Config.fileName
  return if ← FileSystem.isFile path then some path else none

/-- Loads the configuration file at a path. -/
def loadConfigWith (document? : DocumentReader) (path : String) :
    m (List Event × Except Failure Config) := do
  match ← FileSystem.read path with
  | .error error => return ([.configLoading path], .error (.file path error))
  | .ok text =>
    let (events, result) := readConfigWith document? path text
    return (.configLoading path :: events, result)

end Reflector
