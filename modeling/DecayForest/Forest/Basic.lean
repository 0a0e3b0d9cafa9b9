import DecayForest.Database.Basic
import DecayForest.Forest.Error
/-!
# Forests

A forest holds particles and decays in two arenas, the keys of which are their handles. Both kinds are
numbered by one counter; the handle of a new particle can lie in the slot of a discarded one, but its
serial number is new. A particle lists its alternative decays, and a decay its products; parents are
links back.
-/

namespace DecayForest

/-- A particle of a forest. -/
structure Particle where
  type : String
  params : ParamList
  /-- The particle whose decay brings this one forth. -/
  parent : Option ParticleId := none
  /-- The alternative decays, in order. -/
  decays : List DecayId := []
  /-- The number that tells this particle from all others of its forest. -/
  serial : Nat

/-- A decay of a forest. -/
structure Decay where
  products : List ParticleId
  params : ParamList
  /-- The particle that decays. -/
  parent : Option ParticleId := none
  /-- The number that tells this decay from all others of its forest. -/
  serial : Nat

/-- A name that no other particle of a forest has: the type and the serial number. -/
def Particle.uniqueName (p : Particle) : String :=
  p.type ++ "_" ++ toString p.serial

/-- A name that no other decay of a forest has: the serial number. -/
def Decay.uniqueName (d : Decay) : String :=
  toString d.serial

/-- Particles and decays, and the database that knows about their types. -/
structure Forest where
  particles : Arena Particle := .empty
  decays : Arena Decay := .empty
  /-- The serial number of the next particle or decay. Each number is taken once. The count has no bound
  here; one of 64 bits goes the same way for the first 2 ^ 64 particles and decays. -/
  nextSerial : Nat := 0
  database : Database := {}

namespace Forest

/-- The particle of a handle. -/
def particle? (f : Forest) (id : ParticleId) : Option Particle :=
  f.particles.get? id.key

/-- The decay of a handle. -/
def decay? (f : Forest) (id : DecayId) : Option Decay :=
  f.decays.get? id.key

/-- The particle that a handle has to name. -/
def particle (f : Forest) (id : ParticleId) : Except ModelError Particle :=
  match f.particle? id with
  | some p => .ok p
  | none => .error (.deadParticle id)

/-- The decay that a handle has to name. -/
def decay (f : Forest) (id : DecayId) : Except ModelError Decay :=
  match f.decay? id with
  | some d => .ok d
  | none => .error (.deadDecay id)

/-- How messages name a particle. -/
def label (f : Forest) (id : ParticleId) : String :=
  match f.particle? id with
  | some p => p.type
  | none => id.shown

/-- The number of particles. -/
def particleCount (f : Forest) : Nat :=
  f.particles.count

/-- The number of decays. -/
def decayCount (f : Forest) : Nat :=
  f.decays.count

/-- The number of slots for particles. -/
def room (f : Forest) : Nat :=
  f.particles.slots.size

/-- The handle of the particle that is added next. -/
def nextParticle (f : Forest) : ParticleId :=
  ⟨f.particles.next⟩

/-- The handle of the decay that is added next. -/
def nextDecay (f : Forest) : DecayId :=
  ⟨f.decays.next⟩

/-- The unique name of a particle. -/
def uniqueName (f : Forest) (id : ParticleId) : Except ModelError String :=
  Particle.uniqueName <$> f.particle id

/-- The unique name of a decay. -/
def decayUniqueName (f : Forest) (id : DecayId) : Except ModelError String :=
  Decay.uniqueName <$> f.decay id

end Forest

end DecayForest
