import DecayForest.Forest.Edit
/-!
# Copies

A copy is a new particle or decay with the type and the parameters of another. `copyTree` copies a
whole subtree, and `discard` removes one.
-/

namespace DecayForest.Forest

/-- Copies a particle without its decays. -/
def copy (id : ParticleId) : Edit ParticleId := do
  let p ← ask (·.particle id)
  addParticle p.type p.params

/-- The copy of a particle, in a table of copies. -/
def copyOf (table : List (ParticleId × ParticleId)) (id : ParticleId) :
    Except ModelError ParticleId :=
  match table.lookup id with
  | some copied => .ok copied
  | none => .error (.deadParticle id)

/-- Gives the copy of a particle the copies of its decays. -/
def copyDecays (table : List (ParticleId × ParticleId)) (id : ParticleId) : Edit Unit := do
  let parent ← liftM (copyOf table id)
  let p ← ask (·.particle id)
  p.decays.forM fun decay => do
    let d ← ask (·.decay decay)
    let products ← liftM (d.products.mapM (copyOf table))
    attach parent (← addFreeDecay products d.params)

/-- Copies a particle and all below it: first every particle, then the decays over the copies. -/
def copyTree (id : ParticleId) : Edit ParticleId := do
  let _ ← ask (·.particle id)
  let sources := (← get).preorder id
  let table := sources.zip (← sources.mapM copy)
  sources.forM (copyDecays table)
  liftM (copyOf table id)

/-- Copies a decay and all below it. The copy belongs to no particle. -/
def copyFreeDecay (decay : DecayId) : Edit DecayId := do
  let d ← ask (·.decay decay)
  addFreeDecay (← d.products.mapM copyTree) d.params

/-- Copies a decay and all below it, and attaches the copy. -/
def copyDecay (decay : DecayId) (parent : ParticleId) : Edit DecayId := do
  let copied ← copyFreeDecay decay
  attach parent copied
  return copied

/-- Vacates the slots of a particle and of its decays. -/
def vacate (id : ParticleId) : Edit Unit := do
  if let some p := (← get).particle? id then
    modify fun f => { f with particles := f.particles.remove id.key }
    p.decays.forM fun decay => modify fun f => { f with decays := f.decays.remove decay.key }

/-- Removes a particle and all below it from the forest. It must not be a product. -/
def discard (id : ParticleId) : Edit Unit := do
  let p ← ask (·.particle id)
  if p.parent.isSome then throw (.stillAttached p.type)
  ((← get).preorder id).forM vacate

end DecayForest.Forest
