import DecayForest.Forest.Attributes
import DecayForest.Forest.Copy
import DecayForest.Forest.Tree
/-!
# Alternatives

A particle with several decays stands for several hypotheses. An alternative takes one decay of each
particle of a tree that has any, and its probability is the product of their branching fractions.
`Forest.expand` lists all alternatives as new trees of the forest, after a count of them has shown
that they are not too many.
-/

namespace DecayForest

/-- How many alternatives an expansion may have where nothing else is said. -/
def defaultLimit : Nat := 10000

/-- The largest count of alternatives. -/
def maxCount : Nat := Nat.pow 2 128 - 1

/-- A tree with one decay for each particle that has any, and its probability where all branching
fractions are known. -/
structure Alternative where
  root : ParticleId
  probability : Option Float

/-- The probability of two independent events. -/
def bothProbability (a b : Option Float) : Option Float := do
  return (← a) * (← b)

/-- All ways to choose one item of each list. The last choice varies fastest. -/
def choices {α : Type} : List (List α) → List (List α)
  | [] => [[]]
  | items :: rest => items.flatMap fun a => (choices rest).map (a :: ·)

mutual

/-- The number of alternatives of a tree, up to the largest count. -/
def Tree.count : Tree → Nat
  | .node _ _ _ [] => 1
  | .node _ _ _ branches => countBranches branches

/-- The number of alternatives with the given decay on top. -/
def Branch.count : Branch → Nat
  | .mk _ _ products => countProducts products

/-- The number of alternatives with one of the given decays on top. -/
def countBranches : List Branch → Nat
  | [] => 0
  | b :: bs => min maxCount (b.count + countBranches bs)

/-- The number of combinations of alternatives of some trees. -/
def countProducts : List Tree → Nat
  | [] => 1
  | t :: ts => min maxCount (t.count * countProducts ts)

end

namespace Forest

/-- The alternative that takes a given decay of a particle and a given alternative of each of its
products. -/
def resolve (id : ParticleId) (fraction : Option Float) (params : ParamList)
    (combination : List Alternative) : Edit Alternative := do
  let root ← copy id
  let chosen ← combination.mapM fun a => copyTree a.root
  let decay ← addFreeDecay chosen params
  let _ ← adoptDecay root decay ∅
  return ⟨root, combination.foldl (fun p a => bothProbability p a.probability) fraction⟩

/-- Discards the alternatives of a product, which have been copied into larger ones. A product
without decays is its own alternative and stays. -/
def discardAlternatives (product : ParticleId) (alternatives : List Alternative) : Edit Unit :=
  (alternatives.filter (·.root != product)).forM fun a => discard a.root

/-- The alternatives of a particle that take a given decay, from those of its products. -/
def expandDecay (inner : ParticleId → Edit (List Alternative)) (id : ParticleId)
    (decay : DecayId) : Edit (List Alternative) := do
  let fraction ← ask (·.branchingFraction decay)
  let d ← ask (·.decay decay)
  let alternatives ← d.products.mapM inner
  let resolved ← (choices alternatives).mapM (resolve id fraction d.params)
  (d.products.zip alternatives).forM fun (product, as) => discardAlternatives product as
  return resolved

/-- The alternatives of a particle with fewer than so many decays above any decay below it. -/
def expandFrom : Nat → ParticleId → Edit (List Alternative)
  | 0, id => do
    let _ ← ask (·.particle id)
    return [⟨id, some 1⟩]
  | room + 1, id => do
    let p ← ask (·.particle id)
    if p.decays.isEmpty then return [⟨id, some 1⟩]
    return (← p.decays.mapM (expandDecay (expandFrom room) id)).flatten

/-- The number of alternatives of a particle. -/
def alternativeCount (f : Forest) (id : ParticleId) : Except ModelError Nat :=
  (f.tree id).map Tree.count

/-- Adds all alternatives of a particle to the forest, unless they are more than `limit`. -/
def expand (id : ParticleId) (limit : Nat) : Edit (List Alternative) := do
  let tree ← ask (·.tree id)
  if limit < tree.count then throw (.tooManyAlternatives ((← get).label id) tree.count limit)
  expandFrom (maxDepth + 1) id

end Forest

end DecayForest
