import DecayForest.Proofs.Forest.Alternatives
/-!
# The weights of alternatives

`Forest.weight` multiplies the branching fractions that a forest knows for the decays of a tree, from the
top on. An expansion takes the fractions of the original decays before it copies anything, and the
answers are copies of copies; still the probability of each answer is the weight of its tree in the
forest left behind (`Reachable.probability_eq_weight`). What a fraction hangs on are types and
parameters, and a copy has those of its original.
-/

namespace DecayForest

theorem bothProbability_eq_none {a b : Option Float} :
    bothProbability a b = none ↔ a = none ∨ b = none := by
  cases a <;> cases b <;> simp [bothProbability]

theorem foldl_bothProbability_eq_none {ws : List (Option Float)} {a : Option Float} :
    ws.foldl bothProbability a = none ↔ a = none ∨ none ∈ ws := by
  induction ws generalizing a with
  | nil => simp
  | cons w ws ih =>
    rw [List.foldl_cons, ih, bothProbability_eq_none, List.mem_cons, or_assoc, eq_comm (a := w)]

theorem Tree.type_shape (t : Tree) : t.shape.type = t.type := by
  rcases t with ⟨id, type, params, branches⟩
  rw [shape_node]
  rfl

namespace Forest

/-- The weight of a tree with one decay at most for each particle: one for a leaf, and for a decay its
branching fraction times the weights of the products, from the first to the last. -/
def weight (f : Forest) : Tree → Except ModelError (Option Float) :=
  Tree.fold fun _ _ _ below =>
    match below with
    | [] => .ok (some 1)
    | (d, _, inner) :: _ => do
      let fraction ← f.branchingFraction d
      return (← inner.mapM id).foldl bothProbability fraction

variable {f g : Forest} {parent parent' : Option ParticleId} {t u : Tree} {p : ParticleId}
  {P : Particle} {type : String} {params : ParamList} {b : Branch} {x : Option Float} {limit : Nat}
  {as : List Alternative}

theorem weight_leaf : f.weight (.node p type params []) = .ok (some 1) := by
  rw [weight, Tree.fold_node]
  rfl

theorem weight_node {branches : List Branch} :
    f.weight (.node p type params (b :: branches)) = (do
      let fraction ← f.branchingFraction b.id
      return (← b.products.mapM f.weight).foldl bothProbability fraction) := by
  rw [weight, Tree.fold_node]
  show (f.branchingFraction b.id >>= fun fraction =>
    ((b.products.map f.weight).mapM id) >>= fun ws => _) = _
  rw [List.mapM_map]
  rfl

/-- The weight of a tree hangs on its shape and on the database alone. -/
theorem Shows.weight_eq (ht : f.Shows parent t) (hw : f.Weighable t) :
    f.weight t = .ok (t.shape.weight f.fractionOf) := by
  induction t using Tree.induction generalizing parent with
  | node id type params branches ih =>
    rw [Tree.shape_node]
    rcases branches with _ | ⟨b, branches⟩
    · rw [weight_leaf]
      rfl
    have hb : b ∈ b :: branches := List.mem_cons_self
    obtain ⟨⟨x, hx⟩, hproducts⟩ := weighable_iff.mp hw b hb
    have hrule : f.fractionOf type ((b.products.map Tree.shape).map Shape.type) b.params = .ok x := by
      have htypes : (b.products.map Tree.shape).map Shape.type = b.products.map Tree.type := by
        rw [List.map_map]
        exact List.map_congr_left fun v _ => v.type_shape
      rw [htypes, ← hx]
      exact (ht.branchingFraction_eq hb).symm
    have hbelow : b.products.mapM f.weight =
        .ok (b.products.map fun v => v.shape.weight f.fractionOf) :=
      mapM_eq_ok_map fun v hv => ih b hb v hv (ht.product hb hv) (hproducts v hv)
    rw [weight_node, hx, hbelow, List.map_cons, Shape.weight, Shape.Decay.weight, hrule]
    show Except.ok (List.foldl bothProbability x _) = .ok (weightsFrom _ x _)
    rw [weightsFrom_eq, List.foldl_map, List.foldl_map]

/-- No branching fraction of an alternative is at fault if none of the tree is. -/
theorem Shows.weighable_of_mem_alternatives (ht : f.Shows parent t) (hu : g.Shows parent' u)
    (hdatabase : g.database = f.database) (hmem : u.shape ∈ t.alternatives) (hw : f.Weighable t) :
    g.Weighable u := by
  induction u using Tree.induction generalizing t parent parent' with
  | node id type params branches ih =>
    have htype : type = t.type := by
      rw [← Tree.type_of_mem_alternatives hmem, Tree.type_shape]
      rfl
    rw [weighable_iff]
    rcases Tree.branches_of_mem_alternatives hmem with hnil | ⟨b, c, hone, hc, hparams, hproducts⟩
    · cases hnil
      nofun
    · cases hone
      intro b' hb'
      cases List.mem_singleton.mp hb'
      obtain ⟨⟨x, hx⟩, hbelow⟩ := weighable_iff.mp hw c hc
      have htypes : b.products.map Tree.type = c.products.map Tree.type :=
        forall₂_iff_map_eq.mp (hproducts.imp fun v w hvw =>
          (Tree.type_shape v).symm.trans (Tree.type_of_mem_alternatives hvw))
      refine ⟨⟨x, ?_⟩, fun v hv => ?_⟩
      · rw [hu.branchingFraction_eq hb', fractionOf_congr hdatabase, htypes, hparams, Tree.type_node,
          htype, ← ht.branchingFraction_eq hc, hx]
      · obtain ⟨w, hw', hvw⟩ := exists_right_of_forall₂ hproducts hv
        exact ih b hb' v hv (ht.product hc hw') (hu.product hb' hv) hvw (hbelow w hw')

/-- A weight is unknown if some branching fraction is, and only then. -/
theorem weight_eq_none_iff (hresolved : t.Resolved) (h : f.weight t = .ok x) :
    x = none ↔ ∃ d ∈ t.decayIds, f.branchingFraction d = .ok none := by
  induction t using Tree.induction generalizing x with
  | node id type params branches ih =>
    obtain ⟨hone, hbelow⟩ := Tree.resolved_node.mp hresolved
    rcases branches with _ | ⟨b, _ | ⟨c, branches⟩⟩
    · rw [weight_leaf] at h
      cases h
      simp [Tree.decayIds_eq, Tree.children_node]
    · have hb : b ∈ [b] := List.mem_singleton_self b
      rw [weight_node] at h
      obtain ⟨fraction, hfraction, h⟩ := exists_of_bind_eq_ok h
      obtain ⟨ws, hws, h⟩ := exists_of_bind_eq_ok h
      cases h
      have hproducts := forall₂_of_mapM_eq_ok hws
      have hnone : none ∈ ws ↔
          ∃ v ∈ b.products, ∃ d ∈ v.decayIds, f.branchingFraction d = .ok none := by
        constructor
        · intro hmem
          obtain ⟨v, hv, hvw⟩ := exists_left_of_forall₂ hproducts hmem
          exact ⟨v, hv, (ih b hb v hv (hbelow b hb v hv) hvw).mp rfl⟩
        · rintro ⟨v, hv, hd⟩
          obtain ⟨w, hw, hvw⟩ := exists_right_of_forall₂ hproducts hv
          exact (ih b hb v hv (hbelow b hb v hv) hvw).mpr hd ▸ hw
      rw [foldl_bothProbability_eq_none, hnone, Tree.decayIds_eq, Tree.children_node,
        List.flatMap_singleton, Tree.branches_node, List.map_singleton, List.singleton_append,
        List.exists_mem_cons_iff, hfraction, Except.ok.injEq]
      simp only [List.mem_flatMap]
      constructor
      · rintro (h | ⟨v, hv, d, hd, hnone⟩)
        · exact .inl h
        · exact .inr ⟨d, ⟨v, hv, hd⟩, hnone⟩
      · rintro (h | ⟨d, ⟨v, hv, hd⟩, hnone⟩)
        · exact .inl h
        · exact .inr ⟨v, hv, d, hd, hnone⟩
    · exact absurd hone (by simp)

/-- The probability of each answer of an expansion is the weight of its tree in the forest left behind,
for any limit under which the expansion succeeds. It is unknown if a branching fraction of the tree is
unknown, and only then. -/
theorem Reachable.probability_eq_weight (h : Reachable f) (hp : f.particle? p = some P)
    (hrun : (expand p limit).on f = (.ok as, g)) :
    ∀ a ∈ as, ∃ u, g.tree a.root = .ok u ∧ u.Resolved ∧ g.weight u = .ok a.probability ∧
      (a.probability = none ↔ ∃ d ∈ u.decayIds, g.branchingFraction d = .ok none) := by
  have hf := h.linked
  obtain ⟨t, ht, rfl⟩ := hf.exists_tree hp
  obtain ⟨hheight, hw, us, vs, rfl, hg, hyields⟩ := Edit.expand_eq_ok hf ht hrun
  intro a ha
  obtain ⟨u, hu, rfl⟩ := List.mem_map.mp ha
  have hmem := hyields.mem_alternatives hu
  have hresolved := Tree.resolved_of_mem_alternatives hmem
  obtain ⟨parent, hshown⟩ := hyields.shown hg ht hu
  have hweight := hshown.weight_eq (ht.weighable_of_mem_alternatives hshown hg.database hmem hw)
  rw [fractionOf_congr hg.database] at hweight
  exact ⟨u, hyields.tree_eq hg ht hheight hu, hresolved, hweight,
    weight_eq_none_iff hresolved hweight⟩

/-- A particle that decays in two ways, where the fraction of the first is known. -/
def halfKnown : Forest :=
  Operation.putDecayParam ⟨0, 0⟩ ParamList.fractionName (.number 0.25) |>.after twoWays

theorem probability_eq_weight_halfKnown :
    ∃ as g, (expand ⟨0, 0⟩ 2).on halfKnown = (.ok as, g) ∧
      as.map Alternative.probability = [some (0.25 * 1), none] ∧
      ∀ a ∈ as, ∃ u, g.tree a.root = .ok u ∧ u.Resolved ∧ g.weight u = .ok a.probability ∧
        (a.probability = none ↔ ∃ d ∈ u.decayIds, g.branchingFraction d = .ok none) := by
  have hreach : Reachable halfKnown :=
    .step _ (.step _ (.step _ (.step _ (.step _ (.empty {}) trivial) trivial) trivial) trivial) trivial
  have hanswers : ((expand ⟨0, 0⟩ 2).on halfKnown).1.map (·.map Alternative.probability) =
      .ok [some (0.25 * 1), none] := by decide +kernel
  obtain ⟨as, g, hrun, hprobabilities⟩ := Edit.on_of_map_eq_ok hanswers
  exact ⟨as, g, hrun, hprobabilities, hreach.probability_eq_weight
    (show halfKnown.particle? ⟨0, 0⟩ = some ⟨"a", ∅, none, [⟨0, 0⟩, ⟨1, 0⟩], 0⟩ from rfl) hrun⟩

end Forest

end DecayForest
