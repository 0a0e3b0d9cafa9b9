import DecayForest.Forest.Expansion
import DecayForest.Group.Basic
import DecayForest.Outline
/-!
# Drawings

Particles are drawn by their types, decays by arrows, both with their parameters. A group is drawn
with its roots below it, and an expansion with its alternatives and their probabilities.
-/

namespace DecayForest

namespace Drawing

/-- A label with parameters behind it. -/
def label (s : String) (params : ParamList) : String :=
  if params.entries.isEmpty then s else s ++ " " ++ (Value.record params.entries).display

mutual

/-- A particle and its decays. -/
def tree : Tree → Outline
  | .node _ type params branches => .node (label type params) (branchItems branches)

/-- A decay and its products. -/
def branch : Branch → Outline
  | .mk _ params products => .node (label "→" params) (trees products)

/-- Several decays. -/
def branchItems : List Branch → List Outline
  | [] => []
  | b :: bs => branch b :: branchItems bs

/-- Several particles. -/
def trees : List Tree → List Outline
  | [] => []
  | t :: ts => tree t :: trees ts

end

/-- The number of decimal places of a probability. -/
def probabilityPlaces : Nat := 6

/-- A probability. -/
def probability : Option Float → String
  | some p => Number.fixed probabilityPlaces p
  | none => "Unknown"

/-- A label with something added to it. -/
def appended (s : String) : Outline → Outline
  | .node label items => .node (label ++ s) items

end Drawing

namespace Forest

/-- The drawing of a particle and all below it. -/
def outline (f : Forest) (id : ParticleId) : Except ModelError Outline := do
  return Drawing.tree (← f.tree id)

/-- The drawing of some alternatives. -/
def alternativesOutline (f : Forest) (alternatives : List Alternative) :
    Except ModelError Outline := do
  let items ← alternatives.mapM fun a => do
    let weight := " (p = " ++ Drawing.probability a.probability ++ ")"
    return Drawing.appended weight (← f.outline a.root)
  return .node (toString alternatives.length ++ " alternative trees") items

end Forest

/-- The drawing of a group. -/
def Group.outline (g : Group) : Except ModelError Outline := do
  return .node (Drawing.label "ProcessGroup" g.params) (← g.roots.mapM g.forest.outline)

end DecayForest
