import DecayForest.Forest.Expansion
import DecayForest.Host
import DecayForest.Path
import DecayForest.Settings.Variable
import DecayForest.Toml.Reading
/-!
# Settings

Settings come in layers, and each layer overrides those before it: defaults, the file of the user,
the file beside the document, and variables. A relative path in a file is meant from the directory
of that file.
-/

namespace DecayForest

/-- What commands go by. -/
structure Settings where
  /-- The file of the particle database. -/
  database : Option String := none
  /-- The largest number of alternatives of one particle. -/
  maxAlternatives : Nat := defaultLimit
deriving DecidableEq, Repr

/-- What one layer sets. -/
structure Layer where
  database : Option String := none
  maxAlternatives : Option Nat := none
deriving DecidableEq, Repr

namespace Settings

/-- The settings with a layer on top. -/
def under (s : Settings) (l : Layer) : Settings :=
  ⟨l.database.or s.database, l.maxAlternatives.getD s.maxAlternatives⟩

/-- The directory of the settings of the user. -/
def globalDirectory? (env : Environment) : Option String :=
  let chosen := match env.value? "XDG_CONFIG_HOME" with
    | some path => if Path.isAbsolute path then some path else none
    | none => none
  let base := chosen.or (env.home?.map (Path.join · ".config"))
  base.map (Path.join · "graphphys")

/-- The settings of the user. -/
def globalFile? (env : Environment) : Option String :=
  (globalDirectory? env).map (Path.join · "graphphys.toml")

/-- The settings beside the documents of a directory. -/
def localFile (directory : String) : String :=
  Path.join directory ".graphphys.toml"

/-- A path with the values of variables. -/
def expandPath (env : Environment) (path : String) : String :=
  Path.expand (fun name => env.value? name) env.home? path

/-- A setting of a file that is read by `f`. -/
def entry? {α : Type} (f : Toml → Option α) (name : String) (entries : Toml.Entries) :
    Option (Option α) :=
  match entries.lookup name with
  | none => some none
  | some t => (f t).map some

/-- The layer of a document in TOML. -/
def layerOf? (source : String) : Option Layer := do
  let entries ← Toml.read? source
  let database ← entry? (fun | .text s => some s | _ => none) "database" entries
  let limit ← entry? (fun | .integer (.ofNat n) => some n | _ => none) "max_alternatives" entries
  return ⟨database, limit⟩

/-- A path in a file, from where the file is used. -/
def fromFile (env : Environment) (file path : String) : String :=
  let expanded := expandPath env path
  match Path.parent? file with
  | some directory => if Path.isAbsolute expanded then path else Path.join directory expanded
  | none => path

/-- The layer of a file, from what reading the file gave. -/
def layerOfFile (env : Environment) (file : String)
    (content : Except ReadFault String) : Except Fault Layer :=
  match content with
  | .error _ => .error (.settingsInvalid file)
  | .ok text =>
    match layerOf? text with
    | none => .error (.settingsInvalid file)
    | some l => .ok { l with database := l.database.map (fromFile env file) }

/-- The layer of the variables. -/
def layerOfVariables (env : Environment) : Except Fault Layer := do
  if let some name := outside? env then throw (.positionOutside name)
  let database := match given env "database" with
    | .whole path => some path
    | _ => none
  match given env "max_alternatives" with
  | .absent => return ⟨database, none⟩
  | .parts => throw (.settingsInvalid "max_alternatives")
  | .whole s =>
    match count? s with
    | none => throw (.settingsInvalid "max_alternatives")
    | some (.ofNat n) => return ⟨database, some n⟩
    | some n => throw (.negativeLimit n)

/-! ### All layers -/

variable {m : Type → Type} [Monad m] [Host m]

/-- The layer of a file, where there is one. -/
def readLayer (env : Environment) : Option String → ExceptT Fault m Layer
  | none => return {}
  | some file => do
    if ← liftM (Host.isPresent (m := m) file) then
      liftM (layerOfFile env file (← liftM (Host.read (m := m) file)))
    else return {}

/-- The settings of some layers, the lowest one first. -/
def ofLayers (env : Environment) (layers : List Layer) : Settings :=
  let s := layers.foldl under {}
  { s with database := s.database.map (expandPath env) }

/-- The settings for the documents of a directory. -/
def load (directory : Option String) : ExceptT Fault m Settings := do
  let env ← liftM (Host.environment (m := m))
  let user ← readLayer env (globalFile? env)
  let beside ← readLayer env (directory.map localFile)
  let overrides ← liftM (layerOfVariables env)
  return ofLayers env [user, beside, overrides]

/-- The settings as a TOML document. -/
def written (s : Settings) : String :=
  let database := match s.database with
    | some path => "database = " ++ Toml.quoted path ++ "\n"
    | none => ""
  database ++ "max_alternatives = " ++ toString s.maxAlternatives ++ "\n"

/-- A file of settings to start from, in which nothing is set. -/
def template : String :=
  "# graphphys configuration\n" ++
  "#\n" ++
  "# Locations (by precedence, lowest to highest):\n" ++
  "#   Global: ~/.config/graphphys/graphphys.toml\n" ++
  "#   Local:  <document_dir>/.graphphys.toml\n" ++
  "#   Env:    GRAPHPHYS_* environment variables\n" ++
  "\n" ++
  "# Particle database (TOML). Relative paths are resolved against this file.\n" ++
  "# database = \"~/physics/particles.toml\"\n" ++
  "\n" ++
  "# Refuse expansions producing more alternative trees than this\n" ++
  "# max_alternatives = 10000\n"

end Settings

end DecayForest
