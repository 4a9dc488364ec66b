/-!
# The command line

A command line names the target class, the source file and the file to write, in this order, with
options anywhere between them. Its arguments are read from left to right: the first mistake decides,
and so does a request for help or for the version that comes before any mistake. After two dashes
alone all arguments are names.
-/

namespace Reflector

structure Task where
  target : String
  input : String
  output : String
  config : Option String := none
  /-- The records of the classes are to be listed. -/
  list : Bool := false
deriving DecidableEq, Repr

inductive Request where
  | perform (task : Task)
  | help
  | version
  | mistake
deriving DecidableEq, Repr

namespace Request

/-- What the next argument may be. -/
inductive Expectation where
  | anything
  | configPath
  /-- A name, whatever it looks like. -/
  | name
deriving DecidableEq, Repr

structure Progress where
  names : List String := []
  config : Option String := none
  list : Bool := false
  expected : Expectation := .anything
deriving DecidableEq, Repr

inductive LongOption where
  | config
  | list
  | help
  | version
deriving DecidableEq, Repr

def LongOption.ofName? : String → Option LongOption
  | "config" => some .config
  | "json" => some .list
  | "help" => some .help
  | "version" => some .version
  | _ => none

inductive Argument where
  | name (text : String)
  /-- Two dashes and a name, and the text behind an equals sign. -/
  | long (name : String) (value : Option String)
  /-- A dash and letters, the first of them apart. -/
  | short (letter : Char) (others : List Char)
  | escape
deriving DecidableEq, Repr

/-- The form that an argument has. A dash alone is a name. -/
def Argument.ofText (text : String) : Argument :=
  match text.toList with
  | ['-', '-'] => .escape
  | '-' :: '-' :: cs =>
    let name := String.ofList (cs.takeWhile (· != '='))
    match cs.dropWhile (· != '=') with
    | '=' :: value => .long name (some (String.ofList value))
    | _ => .long name none
  | '-' :: letter :: others => .short letter others
  | _ => .name text

namespace Progress

/-- Takes in a name. There are at most three, and only the first may be empty. -/
def addName (p : Progress) (name : String) : Except Request Progress :=
  if 3 ≤ p.names.length || (p.names ≠ [] && name = "") then .error .mistake
  else .ok { p with names := p.names ++ [name] }

/-- Takes in the path of the configuration file, which is named once at most. -/
def setConfig (p : Progress) (path : String) : Except Request Progress :=
  if p.config.isSome || path = "" then .error .mistake
  else .ok { p with config := some path, expected := .anything }

def addOption (p : Progress) : Option LongOption → Option String → Except Request Progress
  | some .help, none => .error .help
  | some .version, none => .error .version
  | some .list, none => if p.list then .error .mistake else .ok { p with list := true }
  | some .config, none => .ok { p with expected := .configPath }
  | some .config, some path => p.setConfig path
  | _, _ => .error .mistake

def add (p : Progress) : Argument → Except Request Progress
  | .name name => p.addName name
  | .long name value => p.addOption (LongOption.ofName? name) value
  | .short 'h' _ => .error .help
  | .short 'V' _ => .error .version
  | .short _ _ => .error .mistake
  | .escape => .ok { p with expected := .name }

/-- Takes in the next argument, or answers what is asked for if that is settled. -/
def next (p : Progress) (text : String) : Except Request Progress :=
  match p.expected with
  | .anything => p.add (Argument.ofText text)
  | .name => p.addName text
  | .configPath =>
    match Argument.ofText text with
    | .name path => p.setConfig path
    | _ => .error .mistake

def request (p : Progress) : Request :=
  match p.expected, p.names with
  | .configPath, _ => .mistake
  | _, [target, input, output] => .perform ⟨target, input, output, p.config, p.list⟩
  | _, _ => .mistake

end Progress

def ofArguments (arguments : List String) : Request :=
  match arguments.foldlM Progress.next {} with
  | .error request => request
  | .ok p => p.request

end Request

end Reflector
