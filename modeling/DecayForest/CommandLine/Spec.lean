/-!
# Command lines

A `Spec` says what a command takes: options, operands in order, and commands of its own. `spec` is
the command line of the program.
-/

namespace DecayForest.CommandLine

/-- What a value has to be. -/
inductive Kind where
  | text
  /-- A text that is not empty. -/
  | path
  /-- A natural number of 64 bits. -/
  | count
  /-- One of some words. -/
  | word (words : List String)
deriving DecidableEq, Repr

/-- What an option does. -/
inductive Action where
  | help
  | version
  | flag
  | value (kind : Kind)
deriving DecidableEq, Repr

/-- An option. -/
structure Opt where
  name : String
  letter : Option Char := none
  action : Action
  /-- The variable that gives the value where the command line does not. -/
  source? : Option String := none
deriving DecidableEq, Repr

/-- A value that is given by its place. -/
structure Operand where
  name : String
  kind : Kind
  required : Bool := true
deriving DecidableEq, Repr

/-- What a command takes. -/
inductive Spec where
  | mk (name : String) (opts : List Opt) (operands : List Operand) (commands : List Spec)

namespace Spec

/-- The name of the command. -/
def name : Spec → String
  | mk name _ _ _ => name

/-- The options of the command. -/
def opts : Spec → List Opt
  | mk _ opts _ _ => opts

/-- The operands of the command. -/
def operands : Spec → List Operand
  | mk _ _ operands _ => operands

/-- The commands of the command. -/
def commands : Spec → List Spec
  | mk _ _ _ commands => commands

end Spec

/-- The options of every command. -/
def commonOpts : List Opt :=
  [⟨"debug", some 'd', .flag, none⟩,
   ⟨"database", none, .value .path, some "GRAPHPHYS_DATABASE"⟩,
   ⟨"help", some 'h', .help, none⟩,
   ⟨"version", some 'V', .version, none⟩]

/-- A command without commands of its own. -/
def leaf (name : String) (opts : List Opt) (operands : List Operand) : Spec :=
  .mk name (opts ++ commonOpts) operands []

/-- The operand that names a document. -/
def fileOperand : Operand := ⟨"file", .path, true⟩

/-- The shells for which there are completions. -/
def shells : List String := ["bash", "elvish", "fish", "powershell", "zsh"]

/-- The commands about settings. -/
def configSpec : Spec :=
  .mk "config" commonOpts []
    [leaf "show" [] [⟨"file", .path, false⟩], leaf "template" [] [], leaf "path" [] []]

/-- The command line of the program. -/
def spec : Spec :=
  .mk "graphphys" commonOpts []
    [leaf "check" [] [fileOperand],
     leaf "tree" [] [fileOperand],
     leaf "expand" [⟨"limit", some 'l', .value .count, none⟩] [fileOperand],
     leaf "emit" [⟨"output", some 'o', .value .path, none⟩] [fileOperand],
     leaf "kinematics" [] [fileOperand],
     leaf "id" [] [⟨"name", .text, true⟩],
     configSpec,
     leaf "completion" [] [⟨"shell", .word shells, true⟩]]

end DecayForest.CommandLine
