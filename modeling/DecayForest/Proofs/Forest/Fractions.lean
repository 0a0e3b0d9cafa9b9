import DecayForest.Proofs.Forest.Growth
/-!
# Branching fractions and weights

The branching fraction of a decay with a parent hangs on the database, the types of the parent and of
the products, and the parameters of the decay, and on nothing else (`branchingFraction_eq`). So it
stays as it is while the forest grows, and a copy of a decay has the fraction of the decay. The weight
of a shape is the probability of a tree of that shape.
-/

namespace DecayForest

namespace Forest

/-- The branching fraction of a decay with the given parameters between given types. -/
def fractionOf (f : Forest) (type : String) (products : List String) (params : ParamList) :
    Except ModelError (Option Float) :=
  match params.value? ParamList.fractionName with
  | some v =>
    match v.number? with
    | some x => .ok (some x)
    | none => .error (.fractionNotNumber v.display)
  | none => do
    let mode ← found? do
      let initial ← f.speciesNamed type
      let species ← products.mapM f.speciesNamed
      f.modeBetween initial species (momentum? params)
    return mode.bind Mode.branchingFraction

variable {f g : Forest} {p : ParticleId} {P : Particle} {d : DecayId} {D : Decay}
  {parent : Option ParticleId} {t u : Tree} {b : Branch} {ts : List Tree} {types : List String}

theorem branchingFraction_eq (hd : f.decay? d = some D) (hpar : D.parent = some p)
    (hp : f.particle? p = some P)
    (htypes : (D.products.mapM fun q => Particle.type <$> f.particle q) = .ok types) :
    f.branchingFraction d = f.fractionOf P.type types D.params := by
  have hmode : f.mode d = (do
      let initial ← f.speciesNamed P.type
      let species ← types.mapM f.speciesNamed
      f.modeBetween initial species (momentum? D.params)) := by
    obtain ⟨products, params, parent⟩ := D
    cases hpar
    unfold mode
    rw [decay_of_some hd]
    show (f.species p >>= fun initial =>
      (products.mapM fun q => Particle.type <$> f.particle q) >>= fun types => _) = _
    rw [htypes, species, particle_of_some hp]
    rfl
  unfold branchingFraction fractionOf
  rw [decay_of_some hd, ← hmode]
  rfl

theorem fractionOf_congr (h : g.database = f.database) : g.fractionOf = f.fractionOf := by
  unfold fractionOf speciesNamed modeBetween
  rw [h]

theorem Shows.mapM_types (ht : f.Shows parent t) (hb : b ∈ t.branches) :
    ((b.products.map Tree.id).mapM fun q => Particle.type <$> f.particle q) =
      .ok (b.products.map Tree.type) := by
  rw [List.mapM_map]
  refine mapM_eq_ok_map fun u hu => ?_
  obtain ⟨U, hU, -, -, heq⟩ := (ht.product hb hu).top
  show Particle.type <$> f.particle u.id = .ok u.type
  rw [particle_of_some hU, heq]
  rfl

theorem Shows.branchingFraction_eq (ht : f.Shows parent t) (hb : b ∈ t.branches) :
    f.branchingFraction b.id = f.fractionOf t.type (b.products.map Tree.type) b.params := by
  obtain ⟨T, hT, -, -, heq⟩ := ht.top
  obtain ⟨serial, hB⟩ := ht.branch hb
  rw [Forest.branchingFraction_eq hB rfl hT (ht.mapM_types hb), heq]
  rfl

/-- The branching fractions of all decays of a tree are known or missing, but none is at fault. -/
def Weighable (f : Forest) (t : Tree) : Prop :=
  ∀ d ∈ t.decayIds, ∃ x, f.branchingFraction d = .ok x

/-- The fault of some branching fraction below a particle. -/
def FaultBelow (f : Forest) (t : Tree) (e : ModelError) : Prop :=
  ∃ d ∈ t.decayIds, f.branchingFraction d = .error e

theorem Shows.branchingFraction_grown (ht : f.Shows parent t) (hg : Grown f g ts)
    (hd : d ∈ t.decayIds) : g.branchingFraction d = f.branchingFraction d := by
  induction t using Tree.induction generalizing parent with
  | node id type params branches ih =>
    rcases mem_decayIds_cases hd with ⟨b, hb, rfl⟩ | ⟨u, hu, hd⟩
    · rw [ht.branchingFraction_eq hb, (hg.stay ht).branchingFraction_eq hb,
        fractionOf_congr hg.database]
    · obtain ⟨b, hb, hub⟩ := Tree.mem_children.mp hu
      exact ih b hb u hub (ht.child hu) hd

theorem Shows.weighable_grown (ht : f.Shows parent t) (hg : Grown f g ts) :
    g.Weighable t ↔ f.Weighable t :=
  forall_congr' fun d => forall_congr' fun hd => by rw [ht.branchingFraction_grown hg hd]

theorem weighable_iff : f.Weighable t ↔
    ∀ b ∈ t.branches, (∃ x, f.branchingFraction b.id = .ok x) ∧
      ∀ u ∈ b.products, f.Weighable u := by
  unfold Weighable
  constructor
  · intro h b hb
    refine ⟨h b.id (Tree.branch_mem_decayIds hb), fun u hu d hd => h d ?_⟩
    exact Tree.decayIds_subset_of_mem_children (Tree.mem_children.mpr ⟨b, hb, hu⟩) hd
  · intro h d hd
    rcases Shows.mem_decayIds_cases hd with ⟨b, hb, rfl⟩ | ⟨u, hu, hd⟩
    · exact (h b hb).1
    · obtain ⟨b, hb, hub⟩ := Tree.mem_children.mp hu
      exact (h b hb).2 u hub d hd

end Forest

/-- How branching fractions come from the type of a parent, those of the products, and the parameters
of a decay. -/
abbrev FractionRule := String → List String → ParamList → Except ModelError (Option Float)

mutual

/-- The probability of a tree of some shape with one decay at most for each particle. -/
def Shape.weight (rule : FractionRule) : Shape → Option Float
  | .node _ _ [] => some 1
  | .node type _ (decay :: _) => decay.weight rule type

/-- The probability of a decay of a particle of some type. -/
def Shape.Decay.weight (rule : FractionRule) (type : String) : Shape.Decay → Option Float
  | .mk params products =>
    match rule type (products.map Shape.type) params with
    | .ok fraction => weightsFrom rule fraction products
    | .error _ => none

/-- The probability of several trees and of something besides. -/
def weightsFrom (rule : FractionRule) (besides : Option Float) : List Shape → Option Float
  | [] => besides
  | s :: ss => weightsFrom rule (bothProbability besides (s.weight rule)) ss

end

theorem weightsFrom_eq (rule : FractionRule) (besides : Option Float) (ss : List Shape) :
    weightsFrom rule besides ss =
      ss.foldl (fun p s => bothProbability p (s.weight rule)) besides := by
  induction ss generalizing besides with
  | nil => rfl
  | cons s ss ih => rw [weightsFrom, ih, List.foldl_cons]

end DecayForest
