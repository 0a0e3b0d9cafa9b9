import DecayForest.Forest.Walk
/-!
# Trees

A `Tree` is a particle with all that is below it, read off a forest. Expansion, writing and drawing
go by it. `Forest.tree` reads the tree of a particle whose chains of decays are short enough.
-/

namespace DecayForest

mutual

/-- A particle and its alternative decays. -/
inductive Tree where
  | node (id : ParticleId) (type : String) (params : ParamList) (branches : List Branch)

/-- A decay and its products. -/
inductive Branch where
  | mk (id : DecayId) (params : ParamList) (products : List Tree)

end

namespace Tree

/-- The particle on top. -/
def id : Tree → ParticleId
  | node id _ _ _ => id

end Tree

namespace Forest

/-- Reads a tree with fewer than so many decays above any of its decays. -/
def treeFrom (f : Forest) : Nat → ParticleId → Except ModelError Tree
  | room, id => do
    let p ← f.particle id
    match room with
    | 0 => return .node id p.type p.params []
    | room + 1 =>
      let branches ← p.decays.mapM fun decay => do
        let d ← f.decay decay
        return Branch.mk decay d.params (← d.products.mapM (f.treeFrom room))
      return .node id p.type p.params branches

/-- The tree of a particle. -/
def tree (f : Forest) (id : ParticleId) : Except ModelError Tree := do
  f.checkDepth id
  f.treeFrom (maxDepth + 1) id

end Forest

end DecayForest
