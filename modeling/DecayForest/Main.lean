import DecayForest.CommandLine.Run
import DecayForest.CommandLine.Usage
/-!
# The program

The machine is a host, and the program runs the command of its arguments on it.
-/

namespace DecayForest

/-- The variables in the form in which the system lists them. -/
def variablesOf (listing : String) : List (String × String) :=
  (listing.splitOn "\x00").filterMap fun setting =>
    match Path.splitAt? ['='] setting.toList with
    | some (name, value) => some (String.ofList name, String.ofList value)
    | none => none

/-- The directory of the account that runs a process, from the state of the process and the list of
all accounts. -/
def accountHomeOf (state accounts : String) : Option String := do
  let line ← (state.splitOn "\n").find? fun line => "Uid:".isPrefixOf line
  let user ← (line.splitOn "\t")[1]?
  (accounts.splitOn "\n").findSome? fun account =>
    match account.splitOn ":" with
    | [_, _, id, _, _, home, _] => if id == user then some home else none
    | _ => none

/-- The text of a file, or nothing if it has none. -/
def textOrNothing (path : String) : IO String := do
  try IO.FS.readFile path
  catch _ => return ""

/-- The text of some bytes. -/
def textOf (content : ByteArray) : Except ReadFault String :=
  match String.fromUTF8? content with
  | some text => .ok text
  | none => .error .unreadable

/-- What an error of the machine says about a file. -/
def readFaultOf : IO.Error → ReadFault
  | .noFileOrDirectory .. => .missing
  | _ => .unreadable

/-- Whether an error of the machine says that a path leads to nothing. -/
def leadsNowhere : IO.Error → Bool
  | .noFileOrDirectory .. | .inappropriateType .. | .invalidArgument .. => true
  | _ => false

instance : Host IO where
  read path := do
    try return textOf (← IO.FS.readBinFile path)
    catch e => return .error (readFaultOf e)
  write path text := do
    try
      if let some directory := Path.parent? path then
        unless directory.isEmpty do IO.FS.createDirAll directory
      IO.FS.writeFile path text
      return true
    catch _ => return false
  isPresent path := do
    try
      let _ ← IO.FS.Handle.mk path .read
      return true
    catch e => return !leadsNowhere e
  environment := do
    let state ← textOrNothing "/proc/self/status"
    let accounts ← textOrNothing "/etc/passwd"
    return ⟨variablesOf (← textOrNothing "/proc/self/environ"), accountHomeOf state accounts⟩

/-- Whether labels are coloured: as variables say, and else on a terminal. -/
def isColored (env : Environment) (terminal : Bool) : Bool :=
  match env.value? "CLICOLOR_FORCE", env.value? "NO_COLOR" with
  | some "0", some _ | none, some _ => false
  | some "0", none | none, none => terminal && env.value? "CLICOLOR" != some "0"
  | some _, _ => true

/-- Writes a text and makes it visible. -/
def writeTo (stream : IO.FS.Stream) (text : String) : IO Unit := do
  stream.putStr text
  stream.flush

/-- Runs the command of some arguments, and gives the exit code. -/
def runOn (arguments : List String) : IO UInt8 := do
  let out ← IO.getStdout
  let err ← IO.getStderr
  let env ← Host.environment (m := IO)
  match CommandLine.read env arguments with
  | .error e =>
    writeTo (if e.isAnswer then out else err) e.message
    return e.exitCode
  | .ok invocation =>
    let (output, fault) ← invocation.run (m := IO) (isColored env (← out.isTty))
    writeTo out output.out
    writeTo err output.err
    return (fault.map Fault.exitCode).getD 0

end DecayForest

def main (arguments : List String) : IO UInt32 :=
  UInt8.toUInt32 <$> DecayForest.runOn arguments
