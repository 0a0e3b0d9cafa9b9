import DecayForest.Forest.Walk
/-!
# Edits of a forest

An edit runs on a forest and may fail; what it did before failing stays. Particles and decays are
linked here and nowhere else: `attach` gives a decay and its products a parent, and `detach` takes
it away. The checks before them keep every particle in one decay at most and out of its own subtree.
-/

namespace DecayForest

/-- A change of a forest that may fail half-way. -/
abbrev Edit := ExceptT ModelError (StateM Forest)

namespace Forest

/-- What a forest answers to a question. -/
def ask {α : Type} (question : Forest → Except ModelError α) : Edit α := do
  match question (← get) with
  | .ok a => return a
  | .error e => throw e

/-- Takes the next serial number. -/
def takeSerial : Edit Nat :=
  modifyGet fun f => (f.nextSerial, { f with nextSerial := f.nextSerial + 1 })

/-- Changes a particle. -/
def modifyParticle (id : ParticleId) (change : Particle → Particle) : Edit Unit := do
  let _ ← ask (·.particle id)
  modify fun f => { f with particles := f.particles.modify id.key change }

/-- Changes a decay. -/
def modifyDecay (id : DecayId) (change : Decay → Decay) : Edit Unit := do
  let _ ← ask (·.decay id)
  modify fun f => { f with decays := f.decays.modify id.key change }

/-- Adds a particle without a parent. -/
def addParticle (type : String) (params : ParamList) : Edit ParticleId := do
  let p : Particle := { type, params, serial := ← takeSerial }
  modifyGet fun f => (f.nextParticle, { f with particles := f.particles.insert p })

/-- Adds a decay without a parent, whatever its products are. -/
def insertDecay (products : List ParticleId) (params : ParamList) : Edit DecayId := do
  let d : Decay := { products, params, serial := ← takeSerial }
  modifyGet fun f => (f.nextDecay, { f with decays := f.decays.insert d })

/-- Sets a parameter of a particle. -/
def putParam (id : ParticleId) (name : String) (v : Value) : Edit Unit :=
  modifyParticle id fun p => { p with params := p.params.put name v }

/-- Sets a parameter of a decay. -/
def putDecayParam (id : DecayId) (name : String) (v : Value) : Edit Unit :=
  modifyDecay id fun d => { d with params := d.params.put name v }

/-- Refuses products that are dead, owned or repeated. Those in `freed` count as not owned, and
those in `seen` come before. -/
def checkProductsFrom (f : Forest) (freed seen : List ParticleId) :
    List ParticleId → Except ModelError Unit
  | [] => .ok ()
  | id :: ids => do
    let p ← f.particle id
    if p.parent.isSome && !freed.contains id then throw (.productOwned p.type)
    if seen.contains id then throw (.productRepeated p.type)
    f.checkProductsFrom freed (id :: seen) ids

/-- Refuses products that are dead, owned or repeated. -/
def checkProducts (f : Forest) (freed products : List ParticleId) : Except ModelError Unit :=
  f.checkProductsFrom freed [] products

/-- Refuses products among which is the particle itself or one above it. -/
def checkCycle (f : Forest) (id : ParticleId) (products : List ParticleId) :
    Except ModelError Unit :=
  match (f.above id).find? products.contains with
  | some ancestor => .error (.cycle (f.label ancestor))
  | none => (f.rootOf id).map fun _ => ()

/-- Adds a decay that belongs to no particle. -/
def addFreeDecay (products : List ParticleId) (params : ParamList) : Edit DecayId := do
  ask (·.checkProducts [] products)
  insertDecay products params

/-- Makes a decay an alternative of a particle, behind its others. -/
def attach (id : ParticleId) (decay : DecayId) : Edit Unit := do
  let d ← ask (·.decay decay)
  d.products.forM fun q => modifyParticle q fun p => { p with parent := some id }
  modifyDecay decay fun d => { d with parent := some id }
  modifyParticle id fun p => { p with decays := p.decays ++ [decay] }

/-- Takes the parent from a decay and its products. -/
def detach (decay : DecayId) : Edit Unit := do
  let d ← ask (·.decay decay)
  d.products.forM fun q => modifyParticle q fun p => { p with parent := none }
  modifyDecay decay fun d => { d with parent := none }

/-- Adds a decay of a particle into the given products. -/
def addDecay (id : ParticleId) (products : List ParticleId) (params : ParamList) :
    Edit DecayId := do
  let _ ← ask (·.particle id)
  ask (·.checkCycle id products)
  let decay ← addFreeDecay products params
  attach id decay
  return decay

/-- Gives a particle a decay that belongs to none. The parameters go on top of its own. -/
def adoptDecay (id : ParticleId) (decay : DecayId) (params : ParamList) : Edit DecayId := do
  let _ ← ask (·.particle id)
  let d ← ask (·.decay decay)
  if let some owner := d.parent then throw (.decayOwned ((← get).label owner))
  ask (·.checkProducts [] d.products)
  ask (·.checkCycle id d.products)
  modifyDecay decay fun d => { d with params := d.params.overlay params }
  attach id decay
  return decay

/-- The decays of a particle and the products of these, which a replacement sets free. -/
def replaceable (f : Forest) (id : ParticleId) :
    Except ModelError (List DecayId × List ParticleId) := do
  let p ← f.particle id
  let decays ← p.decays.mapM f.decay
  return (p.decays, decays.flatMap Decay.products)

/-- Refuses products that a particle cannot have once those in `freed` are free. -/
def checkReplacement (f : Forest) (id : ParticleId) (freed products : List ParticleId) :
    Except ModelError Unit := do
  f.checkProducts freed products
  f.checkCycle id products

/-- Takes all decays from a particle. They stay in the forest. -/
def clearDecays (id : ParticleId) (decays : List DecayId) : Edit Unit := do
  modifyParticle id fun p => { p with decays := [] }
  decays.forM detach

/-- Replaces all decays of a particle by one into the given products. -/
def setDecay (id : ParticleId) (products : List ParticleId) (params : ParamList) :
    Edit DecayId := do
  let (decays, freed) ← ask (·.replaceable id)
  ask (·.checkReplacement id freed products)
  clearDecays id decays
  addDecay id products params

/-- Replaces all decays of a particle by one that belongs to none, or to the particle itself. -/
def adoptOnly (id : ParticleId) (decay : DecayId) (params : ParamList) : Edit DecayId := do
  let (decays, freed) ← ask (·.replaceable id)
  let d ← ask (·.decay decay)
  if let some owner := d.parent then
    unless decays.contains decay do throw (.decayOwned ((← get).label owner))
  ask (·.checkReplacement id freed d.products)
  clearDecays id decays
  adoptDecay id decay params

/-- Takes a decay from its particle. -/
def removeDecay (id : ParticleId) (decay : DecayId) : Edit Unit := do
  let p ← ask (·.particle id)
  unless p.decays.contains decay do throw (.decayNotListed p.type)
  modifyParticle id fun p => { p with decays := p.decays.erase decay }
  detach decay

end Forest

end DecayForest
