import DecayForest.Forest.Basic
/-!
# Walks through a forest

`above` follows parent links upward. `preorder` lists a particle and all below it, each before its
products, and `depth` is the length of the longest chain of decays below it. No walk is longer than
the number of slots for particles, since none comes to a particle twice.
-/

namespace DecayForest.Forest

/-- The particles from one on upward, at most so many. The last is a root, or a handle that names
nothing. -/
def aboveFrom (f : Forest) : Nat → ParticleId → List ParticleId
  | 0, id => [id]
  | bound + 1, id =>
    match (f.particle? id).bind Particle.parent with
    | some parent => id :: f.aboveFrom bound parent
    | none => [id]

/-- A particle, its parent, and so on upward. -/
def above (f : Forest) (id : ParticleId) : List ParticleId :=
  f.aboveFrom f.room id

/-- The topmost particle above one. -/
def rootOf (f : Forest) (id : ParticleId) : Except ModelError ParticleId := do
  let root := (f.above id).getLastD id
  let _ ← f.particle root
  return root

/-- The products of all decays of a particle. -/
def products (f : Forest) (p : Particle) : List ParticleId :=
  p.decays.flatMap fun d => ((f.decay? d).map Decay.products).getD []

/-- The particles of the subtrees of `pending`, at most so many. -/
def preorderFrom (f : Forest) : Nat → List ParticleId → List ParticleId
  | 0, _ | _, [] => []
  | bound + 1, id :: pending =>
    match f.particle? id with
    | some p => id :: f.preorderFrom bound (f.products p ++ pending)
    | none => []

/-- A particle and all below it, each before its products. -/
def preorder (f : Forest) (id : ParticleId) : List ParticleId :=
  f.preorderFrom f.room [id]

/-- The length of the longest chain of decays below a particle, at most so much. -/
def heightFrom (f : Forest) : Nat → ParticleId → Except ModelError Nat
  | 0, _ => return 0
  | bound + 1, id => do
    let p ← f.particle id
    let decays ← p.decays.mapM f.decay
    (decays.flatMap Decay.products).foldlM (fun n q => do
      return max n ((← f.heightFrom bound q) + 1)) 0

/-- The length of the longest chain of decays below a particle. -/
def depth (f : Forest) (id : ParticleId) : Except ModelError Nat := do
  let _ ← f.particle id
  f.heightFrom f.room id

/-- Refuses a particle with too long a chain below it. -/
def checkDepth (f : Forest) (id : ParticleId) : Except ModelError Unit := do
  let depth ← f.depth id
  if maxDepth < depth then throw (.tooDeep (f.label id) depth)

end DecayForest.Forest
