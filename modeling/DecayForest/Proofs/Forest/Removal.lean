import DecayForest.Proofs.Forest.Persistence
/-!
# What a discarded tree leaves behind

`discard` takes the particles that the walk down from a root finds, and the decays of these
(`Reachable.discard_whole`). What stays is as it was and refers to what stays, decays that belong to no
particle aside: these keep a dead product in their list. A slot can be taken again, but under another
handle, so the handles of what is gone stay dead for good.
-/

namespace DecayForest.Forest

open Edit

variable {f g : Forest} {p x : ParticleId} {P X : Particle} {d : DecayId} {D : Decay}
  {xs : List ParticleId} {ds : List DecayId}

/-! ### Handles of what is gone -/

theorem Discarded.gone (hg : Discarded f g xs ds) (hx : x ∈ xs) (hX : f.particle? x = some X) :
    Gone x g where
  spent := hg.precedes.spent (spent_of_particle? hX)
  particle? := (hg.particle? x).trans (if_pos hx)

theorem Discarded.goneDecay (hg : Discarded f g xs ds) (hd : d ∈ ds) (hD : f.decay? d = some D) :
    GoneDecay d g where
  spent := hg.precedes.spentDecay (spent_of_decay? hD)
  decay? := (hg.decay? d).trans (if_pos hd)

/-! ### References -/

/-- All that a particle refers to is there. -/
def Anchored (f : Forest) (X : Particle) : Prop :=
  (∀ q, X.parent = some q → ∃ Q, f.particle? q = some Q) ∧ ∀ d ∈ X.decays, ∃ D, f.decay? d = some D

/-- All that a decay refers to is there. -/
def AnchoredDecay (f : Forest) (D : Decay) : Prop :=
  (∀ q, D.parent = some q → ∃ Q, f.particle? q = some Q) ∧ ∀ q ∈ D.products, ∃ Q, f.particle? q = some Q

theorem Linked.anchored (hf : Linked f) (hX : f.particle? x = some X) : f.Anchored X := by
  refine ⟨fun q hq => hf.live_of_parentOf (.of_particle? hX hq), fun d hd => ?_⟩
  obtain ⟨D, hD, -⟩ := hf.listed hX hd
  exact ⟨D, hD⟩

theorem Linked.anchoredDecay (hf : Linked f) (hD : f.decay? d = some D) (hp : D.parent = some p) :
    f.AnchoredDecay D := by
  refine ⟨fun q hq => ?_, fun q hq => (hf.product hD hp hq).live⟩
  obtain ⟨Q, hQ, -⟩ := hf.owner hD hq
  exact ⟨Q, hQ⟩

/-! ### The removal -/

/-- A particle without a parent is discarded with all that is below it and the decays of these, and
nothing else changes. Whatever is left refers to what is left, unless it is a decay without a parent. No
operation ever brings a removed handle back. A product is not discarded. -/
theorem Reachable.discard_whole (h : Reachable f) (hp : f.particle? p = some P) :
    (P.parent = none → ∃ g ds, (discard p).on f = (.ok (), g) ∧ Discarded f g (f.preorder p) ds ∧
      (∀ x, x ∈ f.preorder p ↔ f.Above p x) ∧
      (∀ d, d ∈ ds ↔ ∃ D q, f.decay? d = some D ∧ D.parent = some q ∧ q ∈ f.preorder p) ∧
      (∀ x X, g.particle? x = some X → g.Anchored X) ∧
      (∀ d D, g.decay? d = some D → D.parent ≠ none → g.AnchoredDecay D) ∧
      ∀ ops, (∀ x ∈ f.preorder p, (Operation.afterAll ops g).particle? x = none) ∧
        ∀ d ∈ ds, (Operation.afterAll ops g).decay? d = none) ∧
    ∀ q, P.parent = some q → (discard p).on f = (.error (.stillAttached P.type), f) := by
  have hf := h.linked
  refine ⟨fun hroot => ?_, fun q hq => on_discard_product hp hq⟩
  obtain ⟨t, ht, rfl⟩ := hf.exists_tree hp
  rw [hroot] at ht
  obtain ⟨g, hrun, hg⟩ := on_discard hf ht
  have hlinked : Linked g := hf.discarded ht hg
  rw [ht.preorder_eq hf]
  refine ⟨g, t.decayIds, hrun, hg, fun x => ht.mem_ids_iff hf, fun d => ht.mem_decayIds_iff hf,
    fun x X hX => hlinked.anchored hX, fun d D hD howned => ?_, fun ops => ?_⟩
  · obtain ⟨q, hq⟩ := Option.ne_none_iff_exists'.mp howned
    exact hlinked.anchoredDecay hD hq
  · refine ⟨fun x hx => ?_, fun d hd => ?_⟩
    · obtain ⟨X, hX⟩ := ht.live hx
      exact (Operation.holds_afterAll (lasting_gone x) ops (hg.gone hx hX)).particle?
    · obtain ⟨D, q, hD, -⟩ := ht.decay_of_mem hd
      exact (Operation.holds_afterAll (lasting_goneDecay d) ops (hg.goneDecay hd hD)).decay?

/-- A particle decays into another, which a decay without a parent lists too. -/
def listedTwice : Forest :=
  Operation.addDecay ⟨0, 0⟩ [⟨1, 0⟩] ∅ |>.after <| Operation.addFreeDecay [⟨1, 0⟩] ∅ |>.after <|
    Operation.addParticle "b" ∅ |>.after <| Operation.addParticle "a" ∅ |>.after {}

/-- The decay without a parent stays and keeps the dead product in its list. -/
theorem discard_whole_listedTwice :
    (∃ g, (discard ⟨0, 0⟩).on listedTwice = (.ok (), g) ∧
      g.decay? ⟨0, 0⟩ = some ⟨[⟨1, 0⟩], ∅, none, 2⟩ ∧
      ∀ ops, (Operation.afterAll ops g).particle? ⟨1, 0⟩ = none) ∧
    (discard ⟨1, 0⟩).on listedTwice = (.error (.stillAttached "b"), listedTwice) := by
  have hreach : Reachable listedTwice :=
    .step _ (.step _ (.step _ (.step _ (.empty {}) trivial) trivial) trivial) trivial
  have htop : listedTwice.particle? ⟨0, 0⟩ = some ⟨"a", ∅, none, [⟨1, 0⟩], 0⟩ := rfl
  have hproduct : listedTwice.particle? ⟨1, 0⟩ = some ⟨"b", ∅, some ⟨0, 0⟩, [], 1⟩ := rfl
  have hlisted : listedTwice.decay? ⟨0, 0⟩ = some ⟨[⟨1, 0⟩], ∅, none, 2⟩ := rfl
  refine ⟨?_, (hreach.discard_whole hproduct).2 ⟨0, 0⟩ rfl⟩
  obtain ⟨g, ds, hrun, hg, -, hds, -, -, hdead⟩ := (hreach.discard_whole htop).1 rfl
  refine ⟨g, hrun, ?_, fun ops => (hdead ops).1 ⟨1, 0⟩ (by decide)⟩
  rw [hg.decay_of_not_mem, hlisted]
  intro hmem
  obtain ⟨D, q, hD, hq, -⟩ := (hds ⟨0, 0⟩).mp hmem
  cases hlisted.symm.trans hD
  cases hq

end DecayForest.Forest
