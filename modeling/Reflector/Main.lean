import Reflector.File.Disk
import Reflector.Program

namespace Reflector

def Event.line (event : Event) : String :=
  let level :=
    match event.level with
    | .debug => "DEBUG"
    | .info => "INFO"
    | .warn => "WARN"
  let values := event.values.map fun (name, value) =>
    let text :=
      match value with
      | .text s => Text.quoted s
      | .number n => toString n
      | .flag b => toString b
    " " ++ name ++ "=" ++ text
  level ++ " " ++ event.message ++ String.join values

/-- Reports an outcome, the events of lesser importance apart. -/
def Outcome.report (outcome : Outcome) : IO Unit := do
  for event in outcome.events do
    if event.level ≠ .debug then IO.eprintln event.line
  if let some failure := outcome.failure? then IO.eprintln ("ERROR " ++ failure.message)
  if outcome.status = 2 then IO.eprint helpText
  IO.print outcome.output

end Reflector

def main (arguments : List String) : IO UInt32 := do
  let outcome ← (Reflector.runProgram arguments : IO Reflector.Outcome)
  outcome.report
  return outcome.status.toUInt32
