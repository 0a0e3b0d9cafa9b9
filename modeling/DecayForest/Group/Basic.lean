import DecayForest.Forest.Basic
/-!
# Groups

A group is a forest with a list of roots and parameters of its own: the content of a document.
-/

namespace DecayForest

/-- A forest with chosen roots and parameters. -/
structure Group where
  forest : Forest := {}
  roots : List ParticleId := []
  params : ParamList := ∅

namespace Group

/-- Adds a particle to the roots. It must not be a product. -/
def addRoot (g : Group) (id : ParticleId) : Except ModelError Group :=
  match g.forest.particle? id with
  | none => .error (.deadRoot id)
  | some p =>
    if p.parent.isSome then .error (.rootOwned p.type) else .ok { g with roots := g.roots ++ [id] }

/-- Sets a parameter of the group. -/
def putParam (g : Group) (name : String) (v : Value) : Group :=
  { g with params := g.params.put name v }

end Group

end DecayForest
