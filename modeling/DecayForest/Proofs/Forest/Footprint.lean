import DecayForest.Proofs.Forest.Alternatives
/-!
# What an expansion leaves behind

On its way an expansion copies the alternatives of products into larger ones and discards them again. In
the end the forest has grown by the trees of the answers: nothing that was there has changed, and
nothing else has stayed (`Reachable.expand_footprint`).
-/

namespace DecayForest.Forest

variable {f g : Forest} {p : ParticleId} {P : Particle} {limit : Nat} {as : List Alternative}

/-- What an expansion leaves behind, wherever and under whatever limit it succeeds. For a leaf it is the
same forest. For any other particle all that was live is as it was, the answers are particles without
parents under new handles, their trees have nothing in common, and what is live now and was not before is
what is in these trees. -/
theorem Reachable.expand_footprint (h : Reachable f) (hp : f.particle? p = some P)
    (hrun : (expand p limit).on f = (.ok as, g)) :
    (P.decays = [] → g = f) ∧
    (P.decays ≠ [] →
      (∀ x X, f.particle? x = some X → g.particle? x = some X) ∧
      (∀ d D, f.decay? d = some D → g.decay? d = some D) ∧
      ∃ us, as.mapM (fun a => g.tree a.root) = .ok us ∧
        (∀ a ∈ as, ¬ f.Spent a.root ∧
          ∃ R, g.particle? a.root = some R ∧ R.parent = none) ∧
        (us.Pairwise fun t u => t.ids.Disjoint u.ids ∧ t.decayIds.Disjoint u.decayIds) ∧
        (∀ x, f.particle? x = none ∧ (∃ X, g.particle? x = some X) ↔ ∃ u ∈ us, x ∈ u.ids) ∧
        ∀ d, f.decay? d = none ∧ (∃ D, g.decay? d = some D) ↔ ∃ u ∈ us, d ∈ u.decayIds) := by
  have hf := h.linked
  obtain ⟨t, ht, rfl⟩ := hf.exists_tree hp
  obtain ⟨P', hP', -, hdecays, heq⟩ := ht.top
  cases hp.symm.trans hP'
  obtain ⟨hheight, hw, hrun⟩ := Edit.expandFrom_of_expand hf ht hrun
  constructor
  · intro hnil
    rw [hnil, eq_comm, List.map_eq_nil_iff] at hdecays
    rw [hdecays] at heq
    have hleaf := Edit.on_expandFrom_leaf (heq ▸ ht) (maxDepth + 1)
    cases hleaf.symm.trans hrun
    rfl
  · intro hne
    have hbranches : t.branches ≠ [] := by
      intro hnil
      rw [hnil] at hdecays
      exact hne hdecays
    obtain ⟨g', us, hrun', hg, hshapes⟩ :=
      Edit.on_expandFrom_new hf ht hbranches (Nat.lt_succ_of_le hheight) hw
    cases hrun.symm.trans hrun'
    have hyields : Yields t us us := ⟨hshapes, .inl rfl⟩
    refine ⟨fun x X => hg.live, fun d D => hg.liveDecay, us, ?_, fun a ha => ?_,
      hg.pairwise_disjoint, fun x => hg.new_iff, fun d => hg.newDecay_iff hf⟩
    · exact mapM_map_eq_ok fun u hu => hyields.tree_eq hg ht hheight hu
    · obtain ⟨u, hu, rfl⟩ := List.mem_map.mp ha
      obtain ⟨R, hR, hnone, -⟩ := (hg.shows hu).top
      exact ⟨hg.fresh hu u.id_mem_ids, R, hR, hnone⟩

/-- A particle whose only product decays in two ways, so that alternatives of the product are copied and
discarded. -/
def twoBelow : Forest :=
  Operation.addDecay ⟨1, 0⟩ [] ∅ |>.after <| Operation.addDecay ⟨1, 0⟩ [] ∅ |>.after <|
    Operation.addDecay ⟨0, 0⟩ [⟨1, 0⟩] ∅ |>.after <| Operation.addParticle "b" ∅ |>.after <|
      Operation.addParticle "a" ∅ |>.after {}

theorem expand_footprint_twoBelow :
    ∃ as g, (expand ⟨0, 0⟩ 2).on twoBelow = (.ok as, g) ∧ as.length = 2 ∧
      (∀ x X, twoBelow.particle? x = some X → g.particle? x = some X) ∧
      ∃ us, as.mapM (fun a => g.tree a.root) = .ok us ∧
        ∀ x, twoBelow.particle? x = none ∧ (∃ X, g.particle? x = some X) ↔ ∃ u ∈ us, x ∈ u.ids := by
  have hreach : Reachable twoBelow :=
    .step _ (.step _ (.step _ (.step _ (.step _ (.empty {}) trivial) trivial) trivial) trivial) trivial
  have hanswers : ((expand ⟨0, 0⟩ 2).on twoBelow).1.map List.length = .ok 2 := by decide +kernel
  obtain ⟨as, g, hrun, hlength⟩ := Edit.on_of_map_eq_ok hanswers
  obtain ⟨hkept, -, us, hread, -, -, hnew, -⟩ := (hreach.expand_footprint
    (show twoBelow.particle? ⟨0, 0⟩ = some ⟨"a", ∅, none, [⟨0, 0⟩], 0⟩ from rfl) hrun).2 nofun
  exact ⟨as, g, hrun, hlength, hkept, us, hread, hnew⟩

end DecayForest.Forest
