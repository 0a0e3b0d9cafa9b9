import DecayForest.Proofs.Forest.Walking
/-!
# Growth of forests

`Forest.Grown f g ts` says that `g` is `f` with the trees `ts` beside what was there: nothing old has
changed, and everything new is in one of these trees. Copies of trees, alternatives and their
combinations are results of this kind.
-/

namespace DecayForest.Forest

/-- The new trees `ts` stand in `g` beside all that was in `f`, and there is nothing else. -/
structure Grown (f g : Forest) (ts : List Tree) : Prop where
  linked : Linked g
  database : g.database = f.database
  precedes : Precedes f g
  particle? : ∀ {x}, f.Spent x → g.particle? x = f.particle? x
  decay? : ∀ {d}, f.SpentDecay d → g.decay? d = f.decay? d
  shows : ∀ {t}, t ∈ ts → g.Shows none t
  distinct : (ts.map Tree.id).Nodup
  fresh : ∀ {t x}, t ∈ ts → x ∈ t.ids → ¬ f.Spent x
  only : ∀ {x X}, g.particle? x = some X → ¬ f.Spent x → ∃ t ∈ ts, x ∈ t.ids
  onlyDecay : ∀ {d D}, g.decay? d = some D → ¬ f.SpentDecay d → ∃ t ∈ ts, d ∈ t.decayIds

variable {f g h : Forest} {parent : Option ParticleId} {p x y : ParticleId} {d : DecayId}
  {t u : Tree} {ts us : List Tree}

theorem Shows.spent (ht : f.Shows parent t) (hx : x ∈ t.ids) : f.Spent x := by
  obtain ⟨X, hX⟩ := ht.live hx
  exact spent_of_particle? hX

theorem Shows.spentDecay (ht : f.Shows parent t) (hd : d ∈ t.decayIds) : f.SpentDecay d := by
  obtain ⟨D, -, hD, -⟩ := ht.decay_of_mem hd
  exact spent_of_decay? hD

/-- Trees of parentless particles are the same or have nothing in common. -/
theorem Shows.disjoint_of_roots (ht : f.Shows none t) (hu : f.Shows none u) (hne : t.id ≠ u.id) :
    List.Disjoint t.ids u.ids := by
  have hroot : ∀ {v w : Tree}, f.Shows none w → v.id ≠ w.id → ¬ f.Above v.id w.id := by
    intro v w hw hvw habove
    obtain ⟨W, hW, hnone, -⟩ := hw.top
    exact hvw (habove.eq_of_root ((parent_eq_none_iff hW).mp hnone))
  exact ht.disjoint hu (hroot hu hne) (hroot ht hne.symm)

namespace Grown

theorem refl (hf : Linked f) : Grown f f [] where
  linked := hf
  database := rfl
  precedes := .refl f
  particle? _ := rfl
  decay? _ := rfl
  shows := nofun
  distinct := List.nodup_nil
  fresh := nofun
  only hX hx := (hx (spent_of_particle? hX)).elim
  onlyDecay hD hd := (hd (spent_of_decay? hD)).elim

theorem live (hg : Grown f g ts) {X : Particle} (hX : f.particle? x = some X) :
    g.particle? x = some X := by
  rw [hg.particle? (spent_of_particle? hX), hX]

theorem liveDecay (hg : Grown f g ts) {D : Decay} (hD : f.decay? d = some D) :
    g.decay? d = some D := by
  rw [hg.decay? (spent_of_decay? hD), hD]

/-- What was shown is shown still. -/
theorem stay (hg : Grown f g ts) (ht : f.Shows parent t) : g.Shows parent t :=
  ht.of_agree (fun _ hx => hg.particle? (ht.spent hx)) fun _ hd => hg.decay? (ht.spentDecay hd)

/-- A decay of a new tree is new. -/
theorem freshDecay (hf : Linked f) (hg : Grown f g ts) (ht : t ∈ ts) (hd : d ∈ t.decayIds) :
    ¬ f.SpentDecay d := by
  intro hspent
  obtain ⟨D, p, hD, hpar, hp⟩ := (hg.shows ht).decay_of_mem hd
  rw [hg.decay? hspent] at hD
  obtain ⟨P, hP, -⟩ := hf.owner hD hpar
  exact hg.fresh ht hp (spent_of_particle? hP)

theorem disjoint (hg : Grown f g ts) (ht : t ∈ ts) (hu : u ∈ ts) (hne : t.id ≠ u.id) :
    List.Disjoint t.ids u.ids :=
  (hg.shows ht).disjoint_of_roots (hg.shows hu) hne

/-- The tops of new trees can become products. -/
theorem free (hg : Grown f g ts) : ∀ q ∈ ts.map Tree.id, g.Free [] q := by
  intro q hq
  obtain ⟨t, ht, rfl⟩ := List.mem_map.mp hq
  obtain ⟨T, hT, hnone, -⟩ := (hg.shows ht).top
  exact ⟨T, hT, .inl hnone⟩

theorem checkProducts (hg : Grown f g ts) : g.checkProducts [] (ts.map Tree.id) = .ok () :=
  (checkProducts_eq_ok [] _).mpr ⟨hg.distinct, hg.free⟩

theorem trans (hg : Grown f g ts) (hh : Grown g h us) : Grown f h (ts ++ us) where
  linked := hh.linked
  database := hh.database.trans hg.database
  precedes := hg.precedes.trans hh.precedes
  particle? hx := (hh.particle? (hg.precedes.spent hx)).trans (hg.particle? hx)
  decay? hd := (hh.decay? (hg.precedes.spentDecay hd)).trans (hg.decay? hd)
  shows ht := (List.mem_append.mp ht).elim (fun ht => hh.stay (hg.shows ht)) hh.shows
  distinct := by
    rw [List.map_append, List.nodup_append]
    refine ⟨hg.distinct, hh.distinct, ?_⟩
    rintro x hx y hy rfl
    obtain ⟨t, ht, rfl⟩ := List.mem_map.mp hx
    obtain ⟨u, hu, hut⟩ := List.mem_map.mp hy
    exact hh.fresh hu u.id_mem_ids (hut ▸ (hg.shows ht).spent t.id_mem_ids)
  fresh ht hx := (List.mem_append.mp ht).elim (fun ht => hg.fresh ht hx)
    fun ht hspent => hh.fresh ht hx (hg.precedes.spent hspent)
  only {x X} hX hx := by
    by_cases hspent : g.Spent x
    · rw [hh.particle? hspent] at hX
      obtain ⟨t, ht, hmem⟩ := hg.only hX hx
      exact ⟨t, List.mem_append_left us ht, hmem⟩
    · obtain ⟨t, ht, hmem⟩ := hh.only hX hspent
      exact ⟨t, List.mem_append_right ts ht, hmem⟩
  onlyDecay {d D} hD hd := by
    by_cases hspent : g.SpentDecay d
    · rw [hh.decay? hspent] at hD
      obtain ⟨t, ht, hmem⟩ := hg.onlyDecay hD hd
      exact ⟨t, List.mem_append_left us ht, hmem⟩
    · obtain ⟨t, ht, hmem⟩ := hh.onlyDecay hD hspent
      exact ⟨t, List.mem_append_right ts ht, hmem⟩

/-- The particles that are live now and were not before are those of the new trees. -/
theorem new_iff (hg : Grown f g ts) :
    f.particle? x = none ∧ (∃ X, g.particle? x = some X) ↔ ∃ t ∈ ts, x ∈ t.ids := by
  constructor
  · rintro ⟨hnone, X, hX⟩
    refine hg.only hX fun hspent => ?_
    cases hnone.symm.trans ((hg.particle? hspent).symm.trans hX)
  · rintro ⟨t, ht, hx⟩
    exact ⟨particle?_of_not_spent (hg.fresh ht hx), (hg.shows ht).live hx⟩

/-- The decays that are live now and were not before are those of the new trees. -/
theorem newDecay_iff (hf : Linked f) (hg : Grown f g ts) :
    f.decay? d = none ∧ (∃ D, g.decay? d = some D) ↔ ∃ t ∈ ts, d ∈ t.decayIds := by
  constructor
  · rintro ⟨hnone, D, hD⟩
    refine hg.onlyDecay hD fun hspent => ?_
    cases hnone.symm.trans ((hg.decay? hspent).symm.trans hD)
  · rintro ⟨t, ht, hd⟩
    obtain ⟨D, -, hD, -⟩ := (hg.shows ht).decay_of_mem hd
    exact ⟨decay?_of_not_spent (hg.freshDecay hf ht hd), D, hD⟩

/-- New trees have no particle and no decay in common. -/
theorem pairwise_disjoint (hg : Grown f g ts) :
    ts.Pairwise fun t u => t.ids.Disjoint u.ids ∧ t.decayIds.Disjoint u.decayIds := by
  refine (List.pairwise_map.mp hg.distinct).imp_of_mem fun {t u} ht hu hne => ?_
  have hids := hg.disjoint ht hu hne
  exact ⟨hids, (hg.shows ht).disjoint_decayIds (hg.shows hu) hids⟩

/-- New trees list no particle twice. -/
theorem nodup_ids (hg : Grown f g ts) : (ts.flatMap Tree.ids).Nodup :=
  List.nodup_flatMap.mpr
    ⟨fun _ ht => (hg.shows ht).nodup_ids hg.linked, hg.pairwise_disjoint.imp And.left⟩

/-- New trees list no decay twice. -/
theorem nodup_decayIds (hg : Grown f g ts) : (ts.flatMap Tree.decayIds).Nodup :=
  List.nodup_flatMap.mpr
    ⟨fun _ ht => (hg.shows ht).nodup_decayIds hg.linked, hg.pairwise_disjoint.imp And.right⟩

/-- The particles of the new trees count on top of the old ones. -/
theorem particleCount_eq (hg : Grown f g ts) :
    g.particleCount = f.particleCount + (ts.flatMap Tree.ids).length := by
  refine particleCount_eq_add (fun x hx => by rw [hg.particle? hx]) hg.nodup_ids fun x => ?_
  rw [List.mem_flatMap]
  constructor
  · rintro ⟨t, ht, hx⟩
    exact ⟨hg.fresh ht hx, (hg.shows ht).live hx⟩
  · rintro ⟨hx, X, hX⟩
    exact hg.only hX hx

/-- The decays of the new trees count on top of the old ones. -/
theorem decayCount_eq (hf : Linked f) (hg : Grown f g ts) :
    g.decayCount = f.decayCount + (ts.flatMap Tree.decayIds).length := by
  refine decayCount_eq_add (fun d hd => by rw [hg.decay? hd]) hg.nodup_decayIds fun d => ?_
  rw [List.mem_flatMap]
  constructor
  · rintro ⟨t, ht, hd⟩
    obtain ⟨D, -, hD, -⟩ := (hg.shows ht).decay_of_mem hd
    exact ⟨hg.freshDecay hf ht hd, D, hD⟩
  · rintro ⟨hd, D, hD⟩
    exact hg.onlyDecay hD hd

/-- A new particle without a parent is a tree of its own. -/
theorem particle (hf : Linked f) (type : String) (params : ParamList) :
    Grown f (f.plusParticle type params) [.node f.nextParticle type params []] where
  linked := hf.plusParticle type params
  database := rfl
  precedes := .plusParticle f type params
  particle? hx := particle?_plusParticle_of_spent hx type params
  decay? _ := rfl
  shows ht := by
    cases List.mem_singleton.mp ht
    exact .node ((particle?_plusParticle ..).trans (if_pos rfl)) nofun nofun
  distinct := List.nodup_singleton _
  fresh ht hx := by
    cases List.mem_singleton.mp ht
    rw [Tree.ids_eq] at hx
    cases List.mem_singleton.mp hx
    exact f.not_spent_next
  only {x X} hX hx := by
    obtain rfl := (spent_plusParticle.mp (spent_of_particle? hX)).resolve_right hx
    exact ⟨_, List.mem_singleton_self _, Tree.id_mem_ids (.node f.nextParticle type params [])⟩
  onlyDecay hD hd := (hd (spent_of_decay? (f := f) hD)).elim

end Grown

end DecayForest.Forest

namespace DecayForest.Edit

open Forest

variable {f : Forest} {α γ δ : Type} (step : γ → Edit α) {S : γ → δ → Prop}
  {R : δ → α → List Tree → Prop} {l : List γ} {m : List δ}

/-- Where each step makes a forest grow, so do the steps in sequence. The steps go by `l`, and what
is said of their results by the list `m` in step with it. -/
theorem on_mapM_grown (hf : Linked f) (hlm : List.Forall₂ S l m)
    (hstep : ∀ c d, S c d → ∀ g ts, Grown f g ts →
      ∃ a h us, (step c).on g = (.ok a, h) ∧ Grown g h us ∧ R d a us) :
    ∃ (rs : List (α × List Tree)) (g : Forest),
      (l.mapM step).on f = (.ok (rs.map Prod.fst), g) ∧ Grown f g (rs.flatMap Prod.snd) ∧
        List.Forall₂ (fun d r => R d r.1 r.2) m rs := by
  induction hlm generalizing f with
  | nil => exact ⟨[], f, rfl, .refl hf, .nil⟩
  | @cons c d l m hcd _ ih =>
    obtain ⟨a, f', us, hrun, hgrown, hR⟩ := hstep c d hcd f [] (.refl hf)
    obtain ⟨rs, g, hruns, hgrowns, hRs⟩ := ih hgrown.linked fun c d hcd g ts hg =>
      hstep c d hcd g (us ++ ts) (hgrown.trans hg)
    refine ⟨(a, us) :: rs, g, ?_, hgrown.trans hgrowns, .cons hR hRs⟩
    rw [List.mapM_cons, on_bind_of_ok hrun, on_bind_of_ok hruns]
    rfl

/-- Where each step adds one tree, so many steps add so many. -/
theorem on_mapM_grown_one (hf : Linked f) {R : δ → α × Tree → Prop} (hlm : List.Forall₂ S l m)
    (hstep : ∀ c d, S c d → ∀ g ts, Grown f g ts →
      ∃ a h v, (step c).on g = (.ok a, h) ∧ Grown g h [v] ∧ R d (a, v)) :
    ∃ (rs : List (α × Tree)) (g : Forest),
      (l.mapM step).on f = (.ok (rs.map Prod.fst), g) ∧ Grown f g (rs.map Prod.snd) ∧
        List.Forall₂ R m rs := by
  induction hlm generalizing f with
  | nil => exact ⟨[], f, rfl, .refl hf, .nil⟩
  | @cons c d l m hcd _ ih =>
    obtain ⟨a, f', v, hrun, hgrown, hR⟩ := hstep c d hcd f [] (.refl hf)
    obtain ⟨rs, g, hruns, hgrowns, hRs⟩ := ih hgrown.linked fun c d hcd g ts hg =>
      hstep c d hcd g (v :: ts) (hgrown.trans hg)
    refine ⟨(a, v) :: rs, g, ?_, hgrown.trans hgrowns, .cons hR hRs⟩
    rw [List.mapM_cons, on_bind_of_ok hrun, on_bind_of_ok hruns]
    rfl

/-- An edit is refused for a fault of some kind. The forest has new trees at most, all else in it is as
it was. -/
def Refused (x : Edit α) (f : Forest) (fault : ModelError → Prop) : Prop :=
  ∃ e h us, x.on f = (.error e, h) ∧ Grown f h us ∧ fault e

theorem Refused.imp {x : Edit α} {fault fault' : ModelError → Prop} (hx : x.Refused f fault)
    (h : ∀ e, fault e → fault' e) : x.Refused f fault' := by
  obtain ⟨e, g, us, hrun, hg, he⟩ := hx
  exact ⟨e, g, us, hrun, hg, h e he⟩

theorem Refused.bind {β : Type} {x : Edit α} {fault : ModelError → Prop} (hx : x.Refused f fault)
    (next : α → Edit β) : (x >>= next).Refused f fault := by
  obtain ⟨e, g, us, hrun, hg, he⟩ := hx
  exact ⟨e, g, us, on_bind_of_error hrun, hg, he⟩

theorem Refused.after {β : Type} {x : Edit β} {next : β → Edit α} {b : β} {g : Forest}
    {us : List Tree} {fault : ModelError → Prop} (hx : x.on f = (.ok b, g)) (hg : Grown f g us)
    (h : (next b).Refused g fault) : (x >>= next).Refused f fault := by
  obtain ⟨e, k, vs, hrun, hk, he⟩ := h
  exact ⟨e, k, us ++ vs, (on_bind_of_ok hx).trans hrun, hg.trans hk, he⟩

/-- Steps in sequence are refused where one of them is and those before it make the forest grow. -/
theorem on_mapM_refused (good : γ → Prop) {fault : ModelError → Prop} (hf : Linked f)
    (hgood : ∀ c ∈ l, good c → ∀ g ts, Grown f g ts →
      ∃ a h us, (step c).on g = (.ok a, h) ∧ Grown g h us)
    (hbad : ∀ c ∈ l, ¬ good c → ∀ g ts, Grown f g ts → (step c).Refused g fault)
    (hsome : ∃ c ∈ l, ¬ good c) : (l.mapM step).Refused f fault := by
  induction l generalizing f with
  | nil =>
    obtain ⟨c, hc, -⟩ := hsome
    cases hc
  | cons c l ih =>
    rw [List.mapM_cons]
    by_cases hc : good c
    · obtain ⟨a, f', us, hrun, hgrown⟩ := hgood c List.mem_cons_self hc f [] (.refl hf)
      refine .after hrun hgrown (.bind (ih hgrown.linked
        (fun d hd hgd g ts hg => hgood d (List.mem_cons_of_mem c hd) hgd g _ (hgrown.trans hg))
        (fun d hd hbd g ts hg => hbad d (List.mem_cons_of_mem c hd) hbd g _ (hgrown.trans hg))
        ?_) _)
      obtain ⟨d, hd, hbd⟩ := hsome
      rcases List.mem_cons.mp hd with rfl | hd
      · exact (hbd hc).elim
      · exact ⟨d, hd, hbd⟩
    · exact (hbad c List.mem_cons_self hc f [] (.refl hf)).bind _

end DecayForest.Edit
