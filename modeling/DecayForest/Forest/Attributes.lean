import DecayForest.Forest.Basic
/-!
# Attributes

What is known about a particle or a decay: its own parameters first, then the database, then what
the forest itself can tell. A search in the database without a result is no fault here, except where
its result is asked for.
-/

namespace DecayForest.Forest

/-- The species with a name. -/
def speciesNamed (f : Forest) (name : String) : Except ModelError Species :=
  match f.database.species.find? name with
  | some s => .ok s
  | none => .error (.unknownSpecies name)

/-- The species of a particle. -/
def species (f : Forest) (id : ParticleId) : Except ModelError Species := do
  f.speciesNamed (← f.particle id).type

/-- The first decay mode between given species. -/
def modeBetween (f : Forest) (initial : Species) (products : List Species)
    (momentum : Option Float) : Except ModelError Mode :=
  match f.database.modes.find? initial products momentum with
  | some m => .ok m
  | none => .error (.unknownMode initial.name (products.map Species.name))

/-- The angular momentum that the parameters of a decay state. -/
def momentum? (params : ParamList) : Option Float :=
  (params.value? ParamList.momentumName).bind Value.number?

/-- The decay mode of a decay. -/
def mode (f : Forest) (id : DecayId) : Except ModelError Mode := do
  let d ← f.decay id
  match d.parent with
  | none => throw .decayWithoutParent
  | some parent =>
    let initial ← f.species parent
    let types ← d.products.mapM fun q => Particle.type <$> f.particle q
    let products ← types.mapM f.speciesNamed
    f.modeBetween initial products (momentum? d.params)

/-- A result, or nothing where the search had none. -/
def found? {α : Type} : Except ModelError α → Except ModelError (Option α)
  | .ok a => .ok (some a)
  | .error e => if e.isNotFound then .ok none else .error e

/-- The branching fraction of a decay: its own parameter, else that of its mode. -/
def branchingFraction (f : Forest) (id : DecayId) : Except ModelError (Option Float) := do
  let d ← f.decay id
  match d.params.value? ParamList.fractionName with
  | some v =>
    match v.number? with
    | some x => return some x
    | none => throw (.fractionNotNumber v.display)
  | none => return (← found? (f.mode id)).bind Mode.branchingFraction

/-- An attribute of a particle. -/
def attributeOf (f : Forest) (id : ParticleId) (name : String) : Except ModelError Value := do
  let p ← f.particle id
  if let some v := p.params.value? name then return v
  if let some v := (← found? (f.speciesNamed p.type)).bind (·.field? name) then return v
  if name = "type" then return .text p.type
  if name = "unique_name" then return .text p.uniqueName
  throw (.noAttribute p.type name)

/-- A field of a decay mode. -/
def modeField? (name : String) (m : Mode) : Option Value :=
  if name = "branching_fraction" then m.branchingFraction.map .number
  else if name = ParamList.momentumName then m.angularMomentum.map .number
  else m.attributes.value? name

/-- An attribute of a decay. -/
def decayAttributeOf (f : Forest) (id : DecayId) (name : String) : Except ModelError Value := do
  let d ← f.decay id
  if let some v := d.params.value? name then return v
  if let some v := (← found? (f.mode id)).bind (modeField? name) then return v
  if name = "unique_name" then return .text d.uniqueName
  throw (.noAttribute ("decay " ++ toString d.serial) name)

end DecayForest.Forest
