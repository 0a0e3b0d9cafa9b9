import DecayForest.CommandLine.Parsing
/-!
# Usage

What is said to someone whose command line gives no command: the usage of the program, its version,
or what is wrong.
-/

namespace DecayForest.CommandLine

/-- The version of the program. -/
def version : String := "0.3.0"

/-- The usage of a command. -/
def usageLine : Spec → String
  | .mk name _ operands commands =>
    let operands := operands.map fun o =>
      " " ++ if o.required then "<" ++ o.name ++ ">" else "[" ++ o.name ++ "]"
    name ++ " [OPTIONS]" ++ String.join operands ++ if commands.isEmpty then "" else " <COMMAND>"

/-- The usage of the program and of its commands. -/
def usage : String :=
  "Usage: " ++ usageLine spec ++ "\n\nCommands:\n" ++
    String.join (spec.commands.map fun c => "  " ++ usageLine c ++ "\n")

namespace UsageFault

/-- Whether the command line asked for what it gets. -/
def isAnswer : UsageFault → Bool
  | help | version => true
  | _ => false

/-- The exit code. -/
def exitCode (e : UsageFault) : UInt8 :=
  if e.isAnswer then 0 else 2

/-- What is said. -/
def message : UsageFault → String
  | help | helpForMissing => usage
  | version => spec.name ++ " " ++ CommandLine.version ++ "\n"
  | missingCommand => "error: a command is missing\n"
  | missingOperand => "error: an argument is missing\n"
  | unknownArgument => "error: an argument is not known\n"
  | malformedValue => "error: a value does not have the right form\n"
  | invalidValue => "error: a value is missing or not among the possible ones\n"
  | surplusValue => "error: an option takes no value\n"
  | repeated => "error: an option is given twice\n"
  | unknownCommand => "error: a command is not known\n"

end UsageFault

end DecayForest.CommandLine
