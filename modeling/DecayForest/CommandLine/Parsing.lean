import DecayForest.CommandLine.Spec
import DecayForest.Environment
import DecayForest.Number.Decimal
/-!
# Reading command lines

Arguments are read from left to right. A value is checked when the next option or operand has been
seen, or at the end, so of two faults the later one may be told. An option that nobody knows is told
at once. After `--` every argument is an operand. Faults of a command come before those of the
command around it.
-/

namespace DecayForest.CommandLine

/-- Why a command line gives no command. -/
inductive UsageFault where
  /-- The help is asked for. -/
  | help
  /-- The version is asked for. -/
  | version
  /-- A command is missing, and nothing else is there. -/
  | helpForMissing
  /-- A command is missing behind options. -/
  | missingCommand
  /-- An operand is missing. -/
  | missingOperand
  /-- An option or operand is not known. -/
  | unknownArgument
  /-- A value does not have the form it should. -/
  | malformedValue
  /-- A value is missing, empty, or not among the allowed ones. -/
  | invalidValue
  /-- A flag has a value. -/
  | surplusValue
  /-- An option is given twice. -/
  | repeated
  /-- A command is not known. -/
  | unknownCommand
deriving DecidableEq, Repr

/-- Where a value comes from. -/
inductive Origin where
  | environment
  | argument
deriving DecidableEq, Repr

/-- A value that is given for an option or an operand. -/
structure GivenValue where
  name : String
  value : String
  origin : Origin
deriving DecidableEq, Repr

/-- What has been given for a command, and for the command inside it. -/
inductive Matched where
  | mk (given : List GivenValue) (inner : Option (String × Matched))

/-- An option or operand whose value is not checked yet. -/
structure Pending where
  name : String
  kind : Kind
  value : Option String

/-- How far the reading of a command has come. -/
structure Progress where
  given : List GivenValue := []
  pending : Option Pending := none
  /-- The pending option still takes the next argument. -/
  awaiting : Bool := false
  /-- Every argument from here on is an operand. -/
  literal : Bool := false
  /-- The operands that have not been given. -/
  operands : List Operand

/-- The largest count, and one more. -/
def countBound : Nat := UInt64.size

/-- The number that a count stands for. A plus sign may stand in front. -/
def count? (s : String) : Option Nat :=
  let ds := match s.toList with
    | '+' :: ds => ds
    | ds => ds
  if ds.isEmpty || !ds.all Char.isDigit then none
  else
    let n := Number.Decimal.natOfDigits ds
    if n < countBound then some n else none

/-- Refuses a value that is not of its kind. -/
def Kind.check (k : Kind) (s : String) : Except UsageFault Unit :=
  match k with
  | text => .ok ()
  | path => if s.isEmpty then .error .invalidValue else .ok ()
  | count => if (count? s).isSome then .ok () else .error .malformedValue
  | word words => if words.contains s then .ok () else .error .invalidValue

namespace Progress

/-- Takes a value for an option or operand. -/
def accept (p : Progress) (name : String) (kind : Kind) (value : Option String) (origin : Origin) :
    Except UsageFault Progress := do
  match value with
  | none => throw .invalidValue
  | some s =>
    if p.given.any (·.name == name) then throw .repeated
    kind.check s
    return { p with given := p.given ++ [⟨name, s, origin⟩] }

/-- Checks the pending value. -/
def settle (p : Progress) : Except UsageFault Progress :=
  match p.pending with
  | none => .ok { p with awaiting := false }
  | some q => { p with pending := none, awaiting := false }.accept q.name q.kind q.value .argument

/-- Does what an option without a value does. -/
def react (p : Progress) (o : Opt) : Except UsageFault Progress := do
  let p ← p.settle
  match o.action with
  | .help => throw .help
  | .version => throw .version
  | .flag => return { p with given := p.given ++ [⟨o.name, "", .argument⟩] }
  | .value _ => return p

/-- Takes an option with the value that is written in the same argument, if any. -/
def option (p : Progress) (o : Opt) (attached : Option String) : Except UsageFault Progress := do
  match o.action, attached with
  | .value kind, some s => (← p.settle).accept o.name kind s .argument
  | .value kind, none =>
    return { ← p.settle with pending := some ⟨o.name, kind, none⟩, awaiting := true }
  | _, some _ => throw .surplusValue
  | _, none => p.react o

/-- Takes a cluster of letters. The rest behind a letter that takes a value is the value. -/
def letters (opts : List Opt) (p : Progress) : List Char → Except UsageFault Progress
  | [] => .ok p
  | c :: cs =>
    match opts.find? (·.letter == some c) with
    | none => .error .unknownArgument
    | some o =>
      match o.action, cs with
      | .value _, [] => p.option o none
      | .value _, '=' :: value => p.option o (some (String.ofList value))
      | .value _, value => p.option o (some (String.ofList value))
      | _, cs => do letters opts (← p.react o) cs

/-- Takes a long option, with a value behind `=` if there is one. -/
def long (opts : List Opt) (p : Progress) (text : List Char) : Except UsageFault Progress :=
  let name := text.takeWhile (· != '=')
  let attached := match text.dropWhile (· != '=') with
    | [] => none
    | _ :: value => some (String.ofList value)
  match opts.find? (·.name.toList == name) with
  | none => .error .unknownArgument
  | some o => p.option o attached

/-- Takes an operand. -/
def operand (s : Spec) (p : Progress) (argument : String) : Except UsageFault Progress :=
  match p.operands with
  | o :: rest => do
    let p ← p.settle
    return { p with pending := some ⟨o.name, o.kind, some argument⟩, operands := rest }
  | [] =>
    if s.commands.isEmpty then .error .unknownArgument
    else if p.literal && (argument == "help" || s.commands.any (·.name == argument)) then
      .error .unknownArgument
    else .error .unknownCommand

/-- Takes an argument that names no command. -/
def take (s : Spec) (p : Progress) (argument : String) : Except UsageFault Progress :=
  if p.literal then operand s p argument
  else
    match argument.toList with
    | ['-', '-'] => .ok { p with literal := true }
    | '-' :: '-' :: text => long s.opts p text
    | '-' :: c :: cs => letters s.opts p (c :: cs)
    | _ =>
      match p.pending with
      | some q =>
        if p.awaiting then
          .ok { p with pending := some { q with value := some argument }, awaiting := false }
        else operand s p argument
      | none => operand s p argument

/-- Takes the values of variables for options that are not given. -/
def environment (env : Environment) (p : Progress) :
    List Opt → Except UsageFault Progress
  | [] => .ok p
  | o :: opts => do
    match o.action, o.source?.bind fun name => env.value? name with
    | .value kind, some value =>
      if p.given.any (·.name == o.name) then environment env p opts
      else environment env (← p.accept o.name kind value .environment) opts
    | _, _ => environment env p opts

/-- Ends the reading of a command, behind the command inside it if there is one. -/
def finish (s : Spec) (env : Environment) (p : Progress)
    (inner : Option (String × Matched)) : Except UsageFault Matched := do
  let p ← (← p.settle).environment env s.opts
  if inner.isNone && !s.commands.isEmpty then
    throw (if p.given.isEmpty then .helpForMissing else .missingCommand)
  if p.operands.any (·.required) then throw .missingOperand
  return .mk p.given inner

end Progress

/-- The fault that asking for the help of some command ends with. -/
def helpFault (s : Spec) : List String → UsageFault
  | [] => .help
  | name :: names =>
    match s.commands.find? (·.name == name) with
    | some inner => helpFault inner names
    | none =>
      if name == "help" && !s.commands.isEmpty then
        if names.isEmpty then .help else .unknownCommand
      else .unknownCommand

/-- Reads the arguments of a command. -/
def parseFrom (env : Environment) (s : Spec) (p : Progress) :
    List String → Except UsageFault Matched
  | [] => p.finish s env none
  | argument :: rest =>
    let mayBeCommand := !p.literal && !p.awaiting
    match s.commands.find? fun c => mayBeCommand && c.name == argument with
    | some inner => do
      let matched ← parseFrom env inner { operands := inner.operands } rest
      p.finish s env (some (inner.name, matched))
    | none =>
      if mayBeCommand && !s.commands.isEmpty && argument == "help" then .error (helpFault s rest)
      else do parseFrom env s (← p.take s argument) rest

/-- Reads a command line. -/
def parse (env : Environment) (s : Spec) (arguments : List String) :
    Except UsageFault Matched :=
  parseFrom env s { operands := s.operands } arguments

end DecayForest.CommandLine
