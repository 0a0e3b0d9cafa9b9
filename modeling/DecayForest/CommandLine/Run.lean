import DecayForest.CommandLine.Command
import DecayForest.CommandLine.Console
import DecayForest.Database.Reading
import DecayForest.Group.Drawing
import DecayForest.Group.Expansion
import DecayForest.Group.Kinematics
import DecayForest.Group.Writing
import DecayForest.Settings
import DecayForest.Text.Quoted
/-!
# Running commands

A command reads the settings, the database and the document, works on the group of the document, and
writes what it finds. A fault ends it; what it has written before stays.
-/

namespace DecayForest

namespace Run

variable {m : Type → Type} [Monad m] [Host m]

/-- A run of a command. -/
abbrev Task (m : Type → Type) := ExceptT Fault (StateT Output m)

/-- Writes something. -/
def say (write : Output → Output) : Task m Unit :=
  modify write

/-- Does something on the host. -/
def onHost {α : Type} (action : ExceptT Fault m α) : Task m α := do
  match ← liftM (StateT.lift (σ := Output) action.run) with
  | .ok a => return a
  | .error e => throw e

/-- A result, or the fault of the model in its place. -/
def settled {α : Type} (r : Except ModelError α) : Task m α :=
  match r with
  | .ok a => return a
  | .error e => throw (.document (.refused e))

/-- The content of a file. -/
def content (path : String) : Task m (Except ReadFault String) :=
  onHost (liftM (Host.read (m := m) path))

/-- The settings for a document. A database on the command line overrides the one they name. -/
def settingsFor (given : Option String) (file : String) : Task m Settings := do
  let settings : Settings ← onHost (Settings.load (Path.parent? file))
  return { settings with database := given.or settings.database }

/-- The database of the settings. -/
def databaseOf (settings : Settings) : Task m Database := do
  match settings.database with
  | none => return {}
  | some path => liftM (Database.ofFile path (← content path))

/-- The settings for a document, and its group. -/
def open? (given : Option String) (file : String) : Task m (Settings × Group) := do
  let settings ← settingsFor given file
  let database ← databaseOf settings
  return (settings, ← liftM (Group.ofFile database file (← content file)))

/-- Checks a document and tells its roots. -/
def check (colored : Bool) (given : Option String) (file : String) : Task m Unit := do
  let (_, g) ← open? given file
  say (·.line (Style.green.paint colored "✓" ++ " " ++ file ++ ": " ++
    toString g.forest.particleCount ++ " particles in " ++ toString g.roots.length ++ " trees"))
  g.roots.forM fun root =>
    match g.forest.particle? root with
    | some p =>
      say (·.line ("  " ++ p.type ++ " (" ++ toString (g.forest.preorder root).length ++
        " particles)"))
    | none => return ()

/-- Draws a document. -/
def tree (given : Option String) (file : String) : Task m Unit := do
  let (_, g) ← open? given file
  say (·.line (← settled g.outline).text)

/-- Draws the alternatives of every root of a document. -/
def expand (colored : Bool) (given : Option String) (file : String) (limit : Option Nat) :
    Task m Unit := do
  let (settings, g) ← open? given file
  let (g, expansions) ← settled (g.expand (limit.getD settings.maxAlternatives))
  expansions.forM fun e => do
    if let some p := g.forest.particle? e.root then
      say (·.line (Style.boldCyan.paint colored p.type))
    say (·.line (← settled (g.forest.alternativesOutline e.alternatives)).text)
    say (·.line ("  sum of probabilities: " ++ Drawing.probability e.total))

/-- Writes a document anew, to a file if one is named. -/
def emit (colored : Bool) (given : Option String) (file : String) (output : Option String) :
    Task m Unit := do
  let (_, g) ← open? given file
  let text ← settled g.written
  match output with
  | none => say (·.text text)
  | some path =>
    if ← onHost (liftM (Host.write (m := m) path text)) then
      say (·.line (Style.green.paint colored "Wrote" ++ ": " ++ path))
    else throw (.documentUnwritable path)

/-- A decay whose products are too heavy, in words. -/
def describe (f : Forest) (d : ImpossibleDecay) : String :=
  let name (id : ParticleId) := ((f.particle? id).map Particle.type).getD ""
  let products := ((f.decay? d.decay).map Decay.products).getD []
  name d.parent ++ " -> " ++ " ".intercalate (products.map name) ++ ": " ++
    Number.plain d.productMass ++ " > " ++ Number.plain d.parentMass

/-- Lists the decays of a document whose products are too heavy. -/
def kinematics (colored : Bool) (given : Option String) (file : String) : Task m Unit := do
  let (_, g) ← open? given file
  let found ← settled g.impossibleDecays
  if found.isEmpty then
    say (·.line (Style.green.paint colored "✓" ++ " all decays are kinematically allowed"))
  else
    say (·.errorLine (Style.yellow.paint colored "Warning" ++ ": " ++ toString found.length ++
      " kinematically impossible decays"))
    found.forM fun d =>
      say (·.line ("  " ++ Style.red.paint colored "✗" ++ " " ++ describe g.forest d))

/-- Tells how a name is spelled in a document. -/
def id (colored : Bool) (name : String) : Task m Unit := do
  match Grammar.written? name with
  | none => throw (.nameUnwritable (Text.quoted name))
  | some spelling =>
    if Grammar.isBare name && !Grammar.isKeyword name then
      say (·.line (Style.green.paint colored "✓" ++ " " ++ name ++ " is a bare identifier"))
    else do
      say (·.errorLine (Style.yellow.paint colored "Warning" ++ ": " ++ Text.quoted name ++
        " must be quoted"))
      say (·.line spelling)

/-- Shows the settings for a document. -/
def showSettings (file : Option String) : Task m Unit := do
  let settings : Settings ← onHost (Settings.load (file.bind Path.parent?))
  say (·.line settings.written)

/-- Tells where settings are looked for. -/
def settingsPaths (colored : Bool) : Task m Unit := do
  let label (name : String) := Style.green.paint colored name
  match Settings.globalFile? (← onHost (liftM (Host.environment (m := m)))) with
  | some path => say (·.line (label "global" ++ ": " ++ path))
  | none =>
    say (·.errorLine (Style.yellow.paint colored "Warning" ++
      ": no config directory on this platform"))
  say (·.line (label "local" ++ ": " ++ Settings.localFile "."))

/-- Runs a command. The script for the completions of a shell is left out: it is generated outside of this
program, from the description of its command line, and nothing is written in its place. -/
def command (colored : Bool) (i : Invocation) : Task m Unit :=
  match i.command with
  | .check file => check colored i.database file
  | .tree file => tree i.database file
  | .expand file limit => expand colored i.database file limit
  | .emit file output => emit colored i.database file output
  | .kinematics file => kinematics colored i.database file
  | .id name => id colored name
  | .showSettings file => showSettings file
  | .settingsTemplate => say (·.line Settings.template)
  | .settingsPaths => settingsPaths colored
  | .completion _ => return ()

/-- The line that tells a fault. -/
def faultLine (colored : Bool) (e : Fault) : String :=
  Style.boldRed.paint colored "error" ++ ": " ++ e.message

end Run

/-- Runs a command, and tells the fault that ended it, if any. -/
def Invocation.run {m : Type → Type} [Monad m] [Host m] (colored : Bool) (i : Invocation) :
    m (Output × Option Fault) := do
  match ← (Run.command (m := m) colored i).run.run {} with
  | (.ok (), o) => return (o, none)
  | (.error e, o) => return (o.errorLine (Run.faultLine colored e), some e)

end DecayForest
