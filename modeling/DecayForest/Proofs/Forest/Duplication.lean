import DecayForest.Proofs.Forest.Reachability
/-!
# Deep copies

A deep copy of a particle, or of a decay with live products, always succeeds in a reachable forest
(`Reachable.copies_faithful`). What it makes has the shape of its source and only new handles. What was
there stays as it was, but for the decay list of the particle that a copied decay goes to.
-/

namespace DecayForest

namespace Forest

/-- Copies a decay and all below it, for a particle or for none. -/
def copyDecayFor (d : DecayId) : Option ParticleId → Edit DecayId
  | none => copyFreeDecay d
  | some p => copyDecay d p

/-- A forest with a new decay, of a particle or of none. -/
def withDecayFor (f : Forest) (products : List ParticleId) (params : ParamList) :
    Option ParticleId → Forest
  | none => f.plusDecay products params
  | some p => f.withDecay p products params

/-- `u` is a copy of `t` under new handles, with `parent` above it. -/
structure Copied (f g : Forest) (parent : Option ParticleId) (t u : Tree) : Prop where
  source : ∃ above, f.Shows above t
  copy : g.Shows parent u
  shape : u.shape = t.shape
  fresh : ∀ x ∈ u.ids, ¬ f.Spent x
  freshDecay : ∀ d ∈ u.decayIds, ¬ f.SpentDecay d

variable {f g : Forest} {x : ParticleId} {X : Particle} {d : DecayId} {D : Decay}
  {owner : Option ParticleId} {products : List ParticleId} {params : ParamList} {t u : Tree}
  {ts us : List Tree}

/-! ### A new decay, of a particle or of none -/

theorem particle?_withDecayFor (hx : x ∉ products) (hX : f.particle? x = some X)
    (params : ParamList) (owner : Option ParticleId) :
    (f.withDecayFor products params owner).particle? x = some { X with
      decays := if owner = some x then X.decays ++ [f.nextDecay] else X.decays } := by
  cases owner with
  | none => exact hX
  | some p =>
    show (f.withDecay p products params).particle? x = _
    rw [particle?_withDecay, hX, Option.map_some, if_neg hx]
    simp only [Option.some.injEq, eq_comm]

theorem isSome_particle?_withDecayFor :
    ((f.withDecayFor products params owner).particle? x).isSome = (f.particle? x).isSome := by
  cases owner with
  | none => rfl
  | some p =>
    show ((f.withDecay p products params).particle? x).isSome = _
    rw [particle?_withDecay, Option.isSome_map]

theorem decay?_withDecayFor_self : (f.withDecayFor products params owner).decay? f.nextDecay =
    some ⟨products, params, owner, f.nextSerial⟩ := by
  cases owner with
  | none => exact decay?_plusDecay_self f products params
  | some p => exact decay?_withDecay_self f p products params

theorem decay?_withDecayFor_of_ne (hd : d ≠ f.nextDecay) :
    (f.withDecayFor products params owner).decay? d = f.decay? d := by
  cases owner with
  | none => exact (decay?_plusDecay f products params d).trans (if_neg hd)
  | some p => exact decay?_withDecay_of_ne f p products params hd

theorem decay?_withDecayFor_of_spent (hd : f.SpentDecay d) :
    (f.withDecayFor products params owner).decay? d = f.decay? d :=
  decay?_withDecayFor_of_ne (ne_nextDecay_of_spent hd)

/-- Whole trees become products of a decay, and are shown below its parent, if it has one. -/
theorem Shows.withDecayFor (hf : Linked f) (hts : ∀ v ∈ ts, f.Shows none v)
    (howner : ∀ p, owner = some p → ∀ v ∈ ts, p ∉ v.ids) (ht : t ∈ ts) (params : ParamList) :
    (f.withDecayFor (ts.map Tree.id) params owner).Shows owner t := by
  cases owner with
  | none =>
    refine (hts t ht).of_agree (fun _ _ => rfl) fun d hd => ?_
    exact decay?_withDecayFor_of_spent ((hts t ht).spentDecay hd)
  | some p => exact Shows.withDecay hf hts (howner p rfl) ht params

theorem particleCount_withDecayFor (f : Forest) (products : List ParticleId) (params : ParamList)
    (owner : Option ParticleId) :
    (f.withDecayFor products params owner).particleCount = f.particleCount := by
  refine particleCount_eq_add (fun x _ => isSome_particle?_withDecayFor) .nil fun x => ?_
  refine iff_of_false List.not_mem_nil ?_
  rintro ⟨hx, hlive⟩
  rw [← Option.isSome_iff_exists, isSome_particle?_withDecayFor, Option.isSome_iff_exists] at hlive
  obtain ⟨X, hX⟩ := hlive
  exact hx (spent_of_particle? hX)

theorem decayCount_withDecayFor (f : Forest) (products : List ParticleId) (params : ParamList)
    (owner : Option ParticleId) :
    (f.withDecayFor products params owner).decayCount = f.decayCount + 1 := by
  refine decayCount_eq_add (fun d hd => by rw [decay?_withDecayFor_of_spent hd])
    (List.nodup_singleton f.nextDecay) fun d => ?_
  rw [List.mem_singleton]
  constructor
  · rintro rfl
    exact ⟨f.not_spentDecay_next, _, decay?_withDecayFor_self⟩
  · rintro ⟨hd, D, hD⟩
    refine Classical.byContradiction fun hne => ?_
    rw [decay?_withDecayFor_of_ne hne] at hD
    exact hd (spent_of_decay? hD)

end Forest

namespace Edit

open Forest

variable {f : Forest} {d : DecayId} {D : Decay} {owner : Option ParticleId} {ts : List Tree}

/-- A decay is copied with the trees of its products. -/
theorem on_copyDecayFor (hf : Linked f) (hD : f.decay? d = some D)
    (hts : List.Forall₂ (fun q t => q = t.id ∧ ∃ parent, f.Shows parent t) D.products ts)
    (howner : ∀ p, owner = some p → ∃ P, f.particle? p = some P) :
    ∃ us g, (copyDecayFor d owner).on f =
        (.ok g.nextDecay, g.withDecayFor (us.map Tree.id) D.params owner) ∧
      Grown f g us ∧ us.map Tree.shape = ts.map Tree.shape := by
  obtain ⟨us, g, hcopies, hg, hshapes⟩ := on_mapM_copyTree (fun q => q) hf hts
  have hadd := on_addFreeDecay (us.map Tree.id) D.params g
  rw [hg.checkProducts] at hadd
  have hfree : (copyFreeDecay d).on f =
      (.ok g.nextDecay, g.plusDecay (us.map Tree.id) D.params) := by
    unfold copyFreeDecay
    rw [on_bind_of_ok (on_ask_decay hD), on_bind_of_ok hcopies, hadd]
  refine ⟨us, g, ?_, hg, hshapes⟩
  cases owner with
  | none => exact hfree
  | some p =>
    obtain ⟨P, hP⟩ := howner p rfl
    show (copyDecay d p).on f = _
    unfold copyDecay
    rw [on_bind_of_ok hfree, on_bind_of_ok (on_attach_new (hg.live hP) hg.checkProducts D.params)]
    rfl

end Edit

namespace Forest

variable {f g : Forest} {d : DecayId} {D : Decay} {owner : Option ParticleId} {ts us : List Tree}

/-- New trees that become products of a decay are copies of what they have the shapes of. -/
theorem Grown.copied (hf : Linked f) (hg : Grown f g us)
    (hts : ∀ t ∈ ts, ∃ above, f.Shows above t) (hshapes : us.map Tree.shape = ts.map Tree.shape)
    (howner : ∀ p, owner = some p → ∃ P, f.particle? p = some P) (params : ParamList) :
    List.Forall₂ (Copied f (g.withDecayFor (us.map Tree.id) params owner) owner) ts us := by
  have howner' : ∀ p, owner = some p → ∀ u ∈ us, p ∉ u.ids := by
    intro p hp u hu hmem
    obtain ⟨P, hP⟩ := howner p hp
    exact hg.fresh hu hmem (spent_of_particle? hP)
  refine forall₂_imp_of_mem (forall₂_iff_map_eq.mpr hshapes.symm) fun t ht u hu hshape => ?_
  exact ⟨hts t ht, .withDecayFor hg.linked (fun _ => hg.shows) howner' hu params, hshape.symm,
    fun _ => hg.fresh hu, fun _ => hg.freshDecay hf hu⟩

/-- A deep copy of a particle, or of a decay with live products, succeeds. Its trees have the shapes of
their sources, which may lie one in another, and nothing but new handles; no two of them have anything in
common. The copy of a decay has a new handle and a new number. All that was live is as it was, but a
particle that a copied decay goes to lists it behind its other decays. There are as many particles and
decays more as there are in the sources. -/
theorem Reachable.copies_faithful (h : Reachable f) :
    (∀ p P, f.particle? p = some P → ∃ t u g,
      t.id = p ∧ (copyTree p).on f = (.ok u.id, g) ∧ Copied f g none t u ∧
      (∀ x X, f.particle? x = some X → g.particle? x = some X) ∧
      (∀ e E, f.decay? e = some E → g.decay? e = some E) ∧
      g.particleCount = f.particleCount + t.ids.length ∧
      g.decayCount = f.decayCount + t.decayIds.length) ∧
    ∀ d D owner, f.decay? d = some D → (∀ q ∈ D.products, ∃ Q, f.particle? q = some Q) →
      (∀ r, owner = some r → ∃ R, f.particle? r = some R) → ∃ ts us c g serial,
      ts.map Tree.id = D.products ∧ (copyDecayFor d owner).on f = (.ok c, g) ∧
      ¬ f.SpentDecay c ∧ f.nextSerial ≤ serial ∧
      g.decay? c = some ⟨us.map Tree.id, D.params, owner, serial⟩ ∧
      List.Forall₂ (Copied f g owner) ts us ∧
      us.Pairwise (fun u v => u.ids.Disjoint v.ids ∧ u.decayIds.Disjoint v.decayIds) ∧
      (∀ x X, f.particle? x = some X → g.particle? x = some { X with
        decays := if owner = some x then X.decays ++ [c] else X.decays }) ∧
      (∀ e E, f.decay? e = some E → g.decay? e = some E) ∧
      g.particleCount = f.particleCount + (ts.flatMap Tree.ids).length ∧
      g.decayCount = f.decayCount + (ts.flatMap Tree.decayIds).length + 1 := by
  have hf := h.linked
  constructor
  · intro p P hp
    obtain ⟨t, ht, rfl⟩ := hf.exists_tree hp
    obtain ⟨g, u, hrun, hg, hshape⟩ := Edit.on_copyTree hf ht
    have hu : u ∈ [u] := List.mem_singleton_self u
    refine ⟨t, u, g, rfl, hrun, ⟨⟨_, ht⟩, hg.shows hu, hshape, fun _ => hg.fresh hu,
      fun _ => hg.freshDecay hf hu⟩, fun _ _ => hg.live, fun _ _ => hg.liveDecay, ?_, ?_⟩
    · rw [hg.particleCount_eq, List.flatMap_singleton, Tree.length_ids_of_shape hshape]
    · rw [hg.decayCount_eq hf, List.flatMap_singleton, Tree.length_decayIds_of_shape hshape]
  · intro d D owner hD hlive howner
    obtain ⟨ts, hts⟩ := exists_forall₂
      (R := fun q t => q = Tree.id t ∧ ∃ above, f.Shows above t) fun q hq => by
        obtain ⟨Q, hQ⟩ := hlive q hq
        obtain ⟨t, ht, hid⟩ := hf.exists_tree hQ
        exact ⟨t, hid.symm, _, ht⟩
    obtain ⟨us, k, hrun, hk, hshapes⟩ := Edit.on_copyDecayFor hf hD hts howner
    have hshown : ∀ t ∈ ts, ∃ above, f.Shows above t := by
      intro t ht
      obtain ⟨q, -, -, hshow⟩ := exists_left_of_forall₂ hts ht
      exact hshow
    have hids : ts.map Tree.id = D.products := by
      have h := (forall₂_iff_map_eq (φ := id)).mp (hts.imp fun _ _ => And.left)
      rw [← h, List.map_id]
    refine ⟨ts, us, k.nextDecay, _, _, hids, hrun,
      fun hspent => k.not_spentDecay_next (hk.precedes.spentDecay hspent), hk.precedes.serial,
      decay?_withDecayFor_self,
      hk.copied hf hshown hshapes howner D.params, hk.pairwise_disjoint, fun x X hX => ?_,
      fun e E hE => ?_, ?_, ?_⟩
    · refine particle?_withDecayFor (fun hmem => ?_) (hk.live hX) D.params owner
      obtain ⟨u, hu, rfl⟩ := List.mem_map.mp hmem
      exact hk.fresh hu u.id_mem_ids (spent_of_particle? hX)
    · have hlive := hk.liveDecay hE
      rw [decay?_withDecayFor_of_spent (spent_of_decay? hlive), hlive]
    · rw [particleCount_withDecayFor, hk.particleCount_eq, Tree.length_flatMap_ids hshapes]
    · rw [decayCount_withDecayFor, hk.decayCount_eq hf, Tree.length_flatMap_decayIds hshapes]

/-- A chain of three particles and two decays. -/
def chain : Forest :=
  Operation.addDecay ⟨1, 0⟩ [⟨2, 0⟩] ∅ |>.after <|
    Operation.addDecay ⟨0, 0⟩ [⟨1, 0⟩] (.ofEntries [("x", .text "y")]) |>.after <|
    Operation.addParticle "c" ∅ |>.after <| Operation.addParticle "b" ∅ |>.after <|
    Operation.addParticle "a" ∅ |>.after {}

/-- The chain is copied whole, and the decay on top of it is copied for the particle at its end. -/
theorem copies_faithful_chain :
    (∃ u g, (copyTree ⟨0, 0⟩).on chain = (.ok u, g) ∧ g.particleCount = 6) ∧
    ∃ c g, (copyDecayFor ⟨0, 0⟩ (some ⟨2, 0⟩)).on chain = (.ok c, g) ∧
      g.particle? ⟨2, 0⟩ = some ⟨"c", ∅, some ⟨1, 0⟩, [c], 2⟩ ∧ g.particleCount = 5 := by
  have hreach : Reachable chain :=
    .step _ (.step _ (.step _ (.step _ (.step _ (.empty {}) trivial) trivial) trivial) trivial) trivial
  have hlen : ∀ {t p}, t.id = p → (∃ above, chain.Shows above t) →
      t.ids.length = (chain.preorder p).length := by
    rintro t _ rfl ⟨above, ht⟩
    rw [ht.preorder_eq hreach.linked]
  obtain ⟨hparticle, hdecay⟩ := hreach.copies_faithful
  constructor
  · obtain ⟨t, u, g, hid, hrun, hu, -, -, hcount, -⟩ :=
      hparticle ⟨0, 0⟩ ⟨"a", ∅, none, [⟨0, 0⟩], 0⟩ rfl
    exact ⟨u.id, g, hrun, by rw [hcount, hlen hid hu.source]; decide⟩
  · obtain ⟨ts, us, c, g, -, hids, hrun, -, -, -, hcopies, -, hkept, -, hcount, -⟩ :=
      hdecay ⟨0, 0⟩ ⟨[⟨1, 0⟩], .ofEntries [("x", .text "y")], some ⟨0, 0⟩, 3⟩ (some ⟨2, 0⟩) rfl
        (by rintro q hq; cases List.mem_singleton.mp hq; exact ⟨_, rfl⟩)
        (by rintro r hr; cases hr; exact ⟨_, rfl⟩)
    obtain ⟨t, rfl, hid⟩ := List.map_eq_singleton_iff.mp hids
    obtain ⟨u, -, hu⟩ := exists_right_of_forall₂ hcopies List.mem_cons_self
    refine ⟨c, g, hrun, hkept ⟨2, 0⟩ ⟨"c", ∅, some ⟨1, 0⟩, [], 2⟩ rfl, ?_⟩
    rw [hcount, List.flatMap_singleton, hlen hid hu.source]
    decide

end Forest

end DecayForest
