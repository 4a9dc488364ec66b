import Mathlib.Data.List.Basic
import Reflector.Program
/-!
# Laws of command lines

What a run relies on of the reader of command lines: names and options are taken for the task that they
spell, and nothing is taken for a request for help or for the version but a text that asks for it.
-/

namespace Reflector

/-- The text is a name and cannot be taken for an option. -/
def IsPlain (text : String) : Prop :=
  text ≠ "" ∧ text.toList.head? ≠ some '-'

instance (text : String) : Decidable (IsPlain text) :=
  inferInstanceAs (Decidable (_ ∧ _))

namespace Task

structure IsPlain (task : Task) : Prop where
  target : Reflector.IsPlain task.target
  input : Reflector.IsPlain task.input
  output : Reflector.IsPlain task.output
  config : ∀ path ∈ task.config, Reflector.IsPlain path

/-- The arguments that spell a task: its names, then its options. -/
def arguments (task : Task) : List String :=
  [task.target, task.input, task.output] ++ (task.config.elim [] fun path => ["--config", path]) ++
    if task.list then ["--json"] else []

end Task

namespace Request

namespace Progress

variable {p : Progress} {text : String} {answer : Request}

end Progress

end Request

end Reflector
