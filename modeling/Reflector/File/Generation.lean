import Reflector.File.System
import Reflector.Generation
/-!
# Generation from file to file

The source is read from one file and the generated source written to another, whose directory is
made if need be. Nothing is made or written unless generation succeeds.
-/

namespace Reflector

variable {m : Type → Type} [Monad m] [FileSystem m]

/-- Writes a generated source; a failure names the path at fault. -/
def writeGenerated (output source : String) : m (Except Failure Unit) := do
  let made ←
    match Path.directory? output with
    | none => pure (.ok ())
    | some directory => (Except.mapError (.file directory)) <$> makeDirectories directory
  match made with
  | .error failure => return .error failure
  | .ok () => return (← FileSystem.write output source).mapError (.file output)

/-- Generates from the file at one path into the file at another. -/
def generateToFile (config : Config) (target input output : String) :
    m (List Event × Except Failure Generation) := do
  match ← FileSystem.read input with
  | .error error => return ([], .error (.file input error))
  | .ok source =>
    match generate config tokenReader target source with
    | (events, .error failure) => return (events, .error failure)
    | (events, .ok generated) =>
      match ← writeGenerated output generated.source with
      | .error failure => return (events, .error failure)
      | .ok () =>
        let written := .generatedWritten target generated.registry.size output
        return (events ++ [written], .ok generated)

end Reflector
