import DecayForest.Document
import DecayForest.Forest.Edit
import DecayForest.Group.Basic
/-!
# Groups from documents

Statements make a group in two passes. The first declares the particles of all node statements, each
with the particle defaults before it. The second goes through the decays, with both kinds of
defaults taken up again from the start, and adds the particles that only decays mention. Each
identifier is one particle, and the topmost particles are the roots.
-/

namespace DecayForest

namespace Building

/-- The particles of the identifiers seen so far. -/
abbrev Names := List (String × ParticleId)

/-- The type that a parameter list states. -/
def statedType (params : ParamList) : Except ModelError (Option String) :=
  match params.value? ParamList.typeName with
  | none => .ok none
  | some (.text type) => .ok (some type)
  | some v => .error (.typeNotText v.display)

/-- Adds the particle of an identifier, or adds to it. -/
def declare (names : Names) (name : String) (params : ParamList) : Edit Names := do
  let type ← liftM (statedType params)
  let rest := params.without ParamList.typeName
  match names.lookup name with
  | some id =>
    Forest.modifyParticle id fun p =>
      { p with type := type.getD p.type, params := p.params.overlay rest }
    return names
  | none => return (name, ← Forest.addParticle (type.getD name) rest) :: names

/-- Declares the particles of all node statements. -/
def declareAll (names : Names) (defaults : ParamList) : List Statement → Edit Names
  | [] => return names
  | .defaults .particle params :: rest => declareAll names (defaults.overlay params) rest
  | .node name params :: rest => do
    declareAll (← declare names name (defaults.overlay params)) defaults rest
  | _ :: rest => declareAll names defaults rest

/-- The particle of an identifier that a decay mentions. A new one takes the identifier as its type
and the defaults as they are. -/
def mention (names : Names) (defaults : ParamList) (name : String) : Edit (Names × ParticleId) := do
  match names.lookup name with
  | some id => return (names, id)
  | none =>
    let id ← Forest.addParticle name defaults
    return ((name, id) :: names, id)

/-- The particles of several identifiers, with `ids` in reverse before them. -/
def mentionAll (names : Names) (defaults : ParamList) (ids : List ParticleId) :
    List String → Edit (Names × List ParticleId)
  | [] => return (names, ids.reverse)
  | name :: rest => do
    let (names, id) ← mention names defaults name
    mentionAll names defaults (id :: ids) rest

/-- Adds the decays of all edge statements. -/
def connectAll (names : Names) (particles decays : ParamList) : List Statement → Edit Names
  | [] => return names
  | .defaults .particle params :: rest => connectAll names (particles.overlay params) decays rest
  | .defaults .decay params :: rest => connectAll names particles (decays.overlay params) rest
  | .edge source targets params :: rest => do
    let (names, parent) ← mention names particles source
    let (names, products) ← mentionAll names particles [] targets
    let _ ← Forest.addDecay parent products (decays.overlay params)
    connectAll names particles decays rest
  | _ :: rest => connectAll names particles decays rest

/-- The identifiers of a statement, in order. -/
def mentioned : Statement → List String
  | .node name _ => [name]
  | .edge source targets _ => source :: targets
  | .defaults _ _ | .param _ _ => []

/-- The parameters of the group that statements set. -/
def groupParams (statements : List Statement) : ParamList :=
  ParamList.ofEntries <| statements.filterMap fun
    | .param name v => some (name, v)
    | _ => none

/-- The topmost particles, in the order in which their trees are first mentioned. -/
def roots (f : Forest) (names : Names) (statements : List Statement) :
    Except ModelError (List ParticleId) := do
  let ids := (statements.flatMap mentioned).filterMap fun name => names.lookup name
  return (← ids.mapM f.rootOf).eraseDups

/-- Builds the forest of some statements and finds its roots. -/
def build (statements : List Statement) : Edit (List ParticleId) := do
  let names ← declareAll [] ∅ statements
  let names ← connectAll names ∅ ∅ statements
  let found ← Forest.ask (roots · names statements)
  found.forM fun root => Forest.ask (·.checkDepth root)
  return found

end Building

namespace Group

/-- The group of some statements. -/
def ofStatements (database : Database) (statements : List Statement) : Except ModelError Group :=
  match (Building.build statements).run.run { database } with
  | (.ok roots, forest) =>
    roots.foldlM Group.addRoot ⟨forest, [], Building.groupParams statements⟩
  | (.error e, _) => .error e

end Group

/-- Why a document makes no group. -/
inductive DocumentError where
  | malformed (e : SyntaxError)
  | refused (e : ModelError)

namespace DocumentError

/-- The fault lies in the document and not in a handle. -/
def isInvalid : DocumentError → Bool
  | malformed _ => true
  | refused e => !e.isDeadHandle

theorem isInvalid_refused {e : ModelError} : (refused e).isInvalid ↔ ¬ e.isDeadHandle := by
  rw [isInvalid, Bool.not_eq_true', Bool.not_eq_true]

/-- The words for it. -/
def message : DocumentError → String
  | malformed e => e.message
  | refused e => e.message

end DocumentError

/-- The group of a document. -/
def Group.read (database : Database) (source : String) : Except DocumentError Group := do
  let statements ← (Document.read source).mapError .malformed
  (Group.ofStatements database (statements.map Located.value)).mapError .refused

end DecayForest
