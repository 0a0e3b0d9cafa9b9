import DecayForest.Forest.Expansion
import DecayForest.Group.Basic
/-!
# Expansions of groups

A group is expanded root by root, each in the forest that the roots before it have left behind. It
keeps its roots, and the alternatives stand beside them.
-/

namespace DecayForest

/-- A root and its alternatives. -/
structure Expansion where
  root : ParticleId
  alternatives : List Alternative

/-- The sum of the probabilities, where all of them are known. -/
def Expansion.total (e : Expansion) : Option Float :=
  e.alternatives.foldlM (fun sum a => a.probability.map (sum + ·)) 0

namespace Group

/-- Expands some particles one after another. -/
def expandEach (limit : Nat) (roots : List ParticleId) : Edit (List Expansion) :=
  roots.mapM fun root => return ⟨root, ← Forest.expand root limit⟩

/-- The group with the alternatives of all its roots in its forest. -/
def expand (g : Group) (limit : Nat) : Except ModelError (Group × List Expansion) :=
  match (expandEach limit g.roots).run.run g.forest with
  | (.ok expansions, forest) => .ok ({ g with forest }, expansions)
  | (.error e, _) => .error e

end Group

end DecayForest
