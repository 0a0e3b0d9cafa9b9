import DecayForest.Forest.Attributes
import DecayForest.Forest.Walk
import DecayForest.Group.Basic
/-!
# Kinematics

A decay cannot happen if its products together have a greater mass than the particle that decays.
`Group.impossibleDecays` lists these decays. Every particle in a decay with products has to have a
mass.
-/

namespace DecayForest

/-- A decay whose products are too heavy. -/
structure ImpossibleDecay where
  parent : ParticleId
  decay : DecayId
  parentMass : Float
  productMass : Float

namespace Forest

/-- The mass of a particle. -/
def mass (f : Forest) (id : ParticleId) : Except ModelError Float := do
  let v ← f.attributeOf id ParamList.massName
  match v.number? with
  | some x => return x
  | none => throw (.massNotNumber v.display (f.label id))

/-- The decay of a particle, if its products are too heavy. -/
def impossible? (f : Forest) (parent : ParticleId) (decay : DecayId) :
    Except ModelError (Option ImpossibleDecay) := do
  let d ← f.decay decay
  if d.products.isEmpty then return none
  let parentMass ← f.mass parent
  -- a sum of nothing would be the negative zero, which leaves every first term as it is
  let productMass := (← d.products.mapM f.mass).foldl (· + ·) (-0.0)
  return if productMass > parentMass then some ⟨parent, decay, parentMass, productMass⟩ else none

/-- The decays of a particle and of all below it, each with the particle that decays. -/
def decaysBelow (f : Forest) (id : ParticleId) : List (ParticleId × DecayId) :=
  (f.preorder id).flatMap fun p =>
    match f.particle? p with
    | some particle => particle.decays.map (p, ·)
    | none => []

end Forest

/-- The decays of a group whose products are too heavy. -/
def Group.impossibleDecays (g : Group) : Except ModelError (List ImpossibleDecay) := do
  let decays := g.roots.flatMap g.forest.decaysBelow
  return (← decays.mapM fun (p, d) => g.forest.impossible? p d).filterMap id

end DecayForest
