import DecayForest.CommandLine.Parsing
/-!
# Commands

What a command line asks for. An option of every command may be given for each command on the way to
the innermost one; the last one given there counts, and a variable counts only where none is.
-/

namespace DecayForest

/-- What the program is asked to do. -/
inductive Command where
  | check (file : String)
  | tree (file : String)
  | expand (file : String) (limit : Option Nat)
  | emit (file : String) (output : Option String)
  | kinematics (file : String)
  | id (name : String)
  | showSettings (file : Option String)
  | settingsTemplate
  | settingsPaths
  | completion (shell : String)
deriving DecidableEq, Repr

/-- A command with the options of every command. -/
structure Invocation where
  database : Option String
  command : Command
deriving DecidableEq, Repr

namespace CommandLine

namespace Matched

/-- The names of the commands on the way inward. -/
def names : Matched → List String
  | mk _ none => []
  | mk _ (some (name, inner)) => name :: inner.names

/-- What is given for each command on the way inward. -/
def levels : Matched → List (List GivenValue)
  | mk given none => [given]
  | mk given (some (_, inner)) => given :: inner.levels

/-- The value of an option or operand of the innermost command. -/
def value? (m : Matched) (name : String) : Option String := do
  return (← (← m.levels.getLast?).find? (·.name == name)).value

/-- The value of an option of every command. -/
def shared? (m : Matched) (name : String) : Option String :=
  let found := m.levels.flatten.filter (·.name == name)
  ((found.filter (·.origin == .argument)).getLast?.or found.getLast?).map GivenValue.value

/-- The command that is asked for. -/
def command? (m : Matched) : Option Command := do
  match m.names with
  | ["check"] => return .check (← m.value? "file")
  | ["tree"] => return .tree (← m.value? "file")
  | ["expand"] => return .expand (← m.value? "file") ((m.value? "limit").bind count?)
  | ["emit"] => return .emit (← m.value? "file") (m.value? "output")
  | ["kinematics"] => return .kinematics (← m.value? "file")
  | ["id"] => return .id (← m.value? "name")
  | ["config", "show"] => return .showSettings (m.value? "file")
  | ["config", "template"] => return .settingsTemplate
  | ["config", "path"] => return .settingsPaths
  | ["completion"] => return .completion (← m.value? "shell")
  | _ => none

end Matched

/-- The command that the arguments of the program ask for. -/
def read (env : Environment) (arguments : List String) :
    Except UsageFault Invocation := do
  let matched ← parse env spec arguments
  match matched.command? with
  | some command => return ⟨matched.shared? "database", command⟩
  | none => throw .missingCommand

end CommandLine

end DecayForest
