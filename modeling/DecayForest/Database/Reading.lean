import DecayForest.Database.Basic
import DecayForest.Fault
import DecayForest.Toml.Reading
/-!
# Databases in TOML

The table `particles` has a table of attributes for each species, and the sequence `decays` has a
table for each mode. Either may be absent, and other keys do not count. Attributes are flags,
numbers, texts and tables of these.
-/

namespace DecayForest

namespace Toml

/-- The binary64 number nearest to an integer. -/
def floatOfInt (n : Int) : Float :=
  let x := Number.Decimal.nearest ⟨n.natAbs, 0⟩
  if n < 0 then -x else x

/-- The name under which a moment stands in a record of its own. -/
def momentName : String := "$__toml_private_datetime"

mutual

/-- An attribute. -/
def parameter? : Toml → Option Value
  | boolean b => some (.flag b)
  | integer n => some (.number (floatOfInt n))
  | float x => some (.number x)
  | text s => some (.text s)
  | moment s => some (.record [(momentName, .text s)])
  | table _ entries => do return .record (ParamList.ofEntries (← parameters? entries)).entries
  | array _ | tables _ => none

/-- Several attributes. -/
def parameters? : List (String × Toml) → Option (List (String × Value))
  | [] => some []
  | (name, t) :: entries => do
    let v ← parameter? t
    return (name, v) :: (← parameters? entries)

end

/-- A table of attributes. -/
def params? (t : Toml) : Option ParamList := do
  (← parameter? t).record?

/-- A text. -/
def text? : Toml → Option String
  | text s => some s
  | _ => none

/-- A number. -/
def number : Toml → Option Float
  | integer n => some (floatOfInt n)
  | float x => some x
  | _ => none

/-- Several texts. -/
def texts? : Toml → Option (List String)
  | array items => items.mapM text?
  | _ => none

/-- A value that may be absent, read by `f` where it is there. -/
def optional {α : Type} (f : Toml → Option α) : Option Toml → Option (Option α)
  | none => some none
  | some t => (f t).map some

/-- A decay mode, from the value of each of its fields. -/
def modeOf? (field : String → Option Toml) : Option Mode := do
  let initial ← text? (← field "initial")
  let products ← texts? (← field "products")
  let fraction ← optional number (field "branching_fraction")
  let momentum ← optional number (field "angular_momentum")
  let attributes ← optional params? (field "attributes")
  return ⟨initial, products, fraction, momentum, attributes.getD ∅⟩

/-- The fields of a decay mode in the order in which an array gives them. -/
def modeFields : List String :=
  ["initial", "products", "branching_fraction", "angular_momentum", "attributes"]

/-- A decay mode: a table, or an array of its fields in order. -/
def mode? : Toml → Option Mode
  | table _ entries => modeOf? fun name => entries.lookup name
  | array items => modeOf? fun name => (modeFields.zip items).lookup name
  | _ => none

/-- The decay modes of a database. -/
def modes? : Toml → Option (List Mode)
  | array items => items.mapM mode?
  | tables elements => elements.reverse.mapM fun entries => mode? (table .header entries)
  | _ => none

/-- The species of a database. -/
def species? : Toml → Option (List (String × ParamList))
  | table _ entries => entries.mapM fun (name, t) => do return (name, ← params? t)
  | _ => none

end Toml

namespace Database

/-- The database of a TOML document. -/
def ofToml? (source : String) : Option Database := do
  let entries ← Toml.read? source
  let species ← Toml.optional Toml.species? (entries.lookup "particles")
  let modes ← Toml.optional Toml.modes? (entries.lookup "decays")
  return ⟨.ofList (species.getD []), .ofList (modes.getD [])⟩

/-- The database of a file, from what reading the file gave. -/
def ofFile (path : String) (content : Except ReadFault String) : Except Fault Database :=
  match content with
  | .error _ => .error (.databaseUnreadable path)
  | .ok text =>
    match ofToml? text with
    | some db => .ok db
    | none => .error (.databaseInvalid path)

end Database

end DecayForest
