import DecayForest.Forest.Edit
/-!
# Chains

A chain is a particle `p0` that decays into `p1` alone, which decays into `p2`, and so on. It is the
smallest forest of a given depth.
-/

namespace DecayForest.Forest

/-- Adds so many links below a particle, whose number in the chain is given. -/
def addLinks (id : ParticleId) (number : Nat) : Nat → Edit Unit
  | 0 => return ()
  | links + 1 => do
    let next ← addParticle ("p" ++ toString (number + 1)) ∅
    let _ ← addDecay id [next] ∅
    addLinks next (number + 1) links

/-- Adds a chain with so many decays. -/
def addChain (links : Nat) : Edit ParticleId := do
  let root ← addParticle "p0" ∅
  addLinks root 0 links
  return root

end DecayForest.Forest
