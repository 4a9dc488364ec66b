import Reflector.Class.Listing
import Reflector.CommandLine
import Reflector.Config.Loading
import Reflector.File.Generation
import Reflector.Toml.Document
/-!
# The program

A run of the program on a command line: it reads the configuration that is named, or else the one
beside the source file if there is one, and generates from file to file. The exit status is 0 for
success, 1 for a failure and 2 for a mistake on the command line. The readers of command lines and of
documents are parameters of a run.
-/

namespace Reflector

/-- What a run of the program leaves behind, the files apart. -/
structure Outcome where
  status : Nat
  output : String := ""
  events : List Event := []
  failure? : Option Failure := none
deriving DecidableEq, Repr

def versionText : String := "reflgen 0.3.0\n"

def helpText : String :=
  "Usage: reflgen [OPTIONS] <TARGET> <INPUT> <OUTPUT>\n\n"
    ++ "Arguments:\n"
    ++ "  <TARGET>  Class to generate for\n"
    ++ "  <INPUT>   Source file to scan\n"
    ++ "  <OUTPUT>  File to write\n\n"
    ++ "Options:\n"
    ++ "      --config <CONFIG>  Configuration file (" ++ Config.fileName
    ++ " beside INPUT if not given)\n"
    ++ "      --json             List the classes on the standard output\n"
    ++ "  -h, --help             Print help\n"
    ++ "  -V, --version          Print version\n"

/-- What the texts that are given to a run are read with. -/
structure Readers where
  /-- What the arguments of a command line ask for. -/
  request : List String → Request
  document? : DocumentReader

variable {m : Type → Type} [Monad m] [FileSystem m]

/-- The configuration of a task: the one that is named, or else the one beside the source file, or
else the defaults. -/
def Task.loadConfig (document? : DocumentReader) (task : Task) :
    m (List Event × Except Failure Config) := do
  let path? ←
    match task.config with
    | some path => pure (some path)
    | none => configBeside? task.input
  match path? with
  | some path => loadConfigWith document? path
  | none => return ([], .ok {})

def Task.perform (document? : DocumentReader) (task : Task) : m Outcome := do
  match ← task.loadConfig document? with
  | (events, .error failure) => return { status := 1, events, failure? := some failure }
  | (events, .ok config) =>
    match ← generateToFile config task.target task.input task.output with
    | (later, .error failure) =>
      return { status := 1, events := events ++ later, failure? := some failure }
    | (later, .ok generated) =>
      let output := if task.list then generated.registry.listing else ""
      return { status := 0, output, events := events ++ later }

/-- Runs the program on the arguments of a command line. -/
def runProgramWith (readers : Readers) (arguments : List String) : m Outcome :=
  match readers.request arguments with
  | .perform task => task.perform readers.document?
  | .help => return { status := 0, output := helpText }
  | .version => return { status := 0, output := versionText }
  | .mistake => return { status := 2 }

/-- The readers of the command: arguments from left to right, and TOML documents. -/
def Readers.command : Readers where
  request := Request.ofArguments
  document? := Toml.document?

def readConfig (path text : String) : List Event × Except Failure Config :=
  readConfigWith Readers.command.document? path text

def loadConfig (path : String) : m (List Event × Except Failure Config) :=
  loadConfigWith Readers.command.document? path

def runProgram (arguments : List String) : m Outcome :=
  runProgramWith Readers.command arguments

end Reflector
