import DecayForest.Forest.Copy
import DecayForest.Proofs.Forest.Growth
/-!
# Discarded trees

`discard` vacates the slots of one whole tree, the root of which must be no product. What is left is
linked, and a forest that has grown by some trees has then grown by one less (`on_discard_grown`).
-/

namespace DecayForest

namespace Forest

/-- `g` is `f` less some particles and decays. -/
structure Discarded (f g : Forest) (xs : List ParticleId) (ds : List DecayId) : Prop where
  precedes : Precedes f g
  database : g.database = f.database
  particle? : ∀ x, g.particle? x = if x ∈ xs then none else f.particle? x
  decay? : ∀ d, g.decay? d = if d ∈ ds then none else f.decay? d

variable {f g h : Forest} {p q x : ParticleId} {P X : Particle} {d : DecayId} {D : Decay}
  {xs ys : List ParticleId} {ds es : List DecayId} {parent : Option ParticleId} {t u : Tree}
  {ts : List Tree}

namespace Discarded

theorem refl (f : Forest) : Discarded f f [] [] :=
  ⟨.refl f, rfl, fun _ => by rw [if_neg List.not_mem_nil], fun _ => by rw [if_neg List.not_mem_nil]⟩

theorem trans (hg : Discarded f g xs ds) (hh : Discarded g h ys es) :
    Discarded f h (xs ++ ys) (ds ++ es) where
  precedes := hg.precedes.trans hh.precedes
  database := hh.database.trans hg.database
  particle? x := by
    rw [hh.particle?, hg.particle?]
    by_cases hy : x ∈ ys <;> simp [hy]
  decay? d := by
    rw [hh.decay?, hg.decay?]
    by_cases he : d ∈ es <;> simp [he]

theorem particle_of_not_mem (hg : Discarded f g xs ds) (hx : x ∉ xs) :
    g.particle? x = f.particle? x := by
  rw [hg.particle?, if_neg hx]

theorem decay_of_not_mem (hg : Discarded f g xs ds) (hd : d ∉ ds) : g.decay? d = f.decay? d := by
  rw [hg.decay?, if_neg hd]

theorem particle_eq_some (hg : Discarded f g xs ds) :
    g.particle? x = some X ↔ x ∉ xs ∧ f.particle? x = some X := by
  rw [hg.particle?]
  split <;> simp_all

theorem decay_eq_some (hg : Discarded f g xs ds) :
    g.decay? d = some D ↔ d ∉ ds ∧ f.decay? d = some D := by
  rw [hg.decay?]
  split <;> simp_all

theorem parentOf_iff (hg : Discarded f g xs ds) :
    g.ParentOf p q ↔ q ∉ xs ∧ f.ParentOf p q := by
  unfold ParentOf
  rw [hg.particle?]
  split <;> simp_all

end Discarded

/-- A tree holds the parent of each of its particles but the topmost. -/
theorem Shows.parent_mem (hf : Linked f) (ht : f.Shows none t) (hq : q ∈ t.ids)
    (hpq : f.ParentOf p q) : p ∈ t.ids := by
  have hne : t.id ≠ q := by
    rintro rfl
    obtain ⟨T, hT, hnone, -⟩ := ht.top
    exact (parent_eq_none_iff hT).mp hnone p hpq
  exact (ht.mem_ids_iff hf).mpr ((ht.above hq).of_parentOf hne hpq)

/-- What is left of a linked forest without one whole tree is linked. -/
theorem Linked.discarded (hf : Linked f) (ht : f.Shows none t)
    (hg : Discarded f g t.ids t.decayIds) : Linked g := by
  have howner : ∀ {d D p}, f.decay? d = some D → D.parent = some p →
      (d ∈ t.decayIds ↔ p ∈ t.ids) := by
    intro d D p hD hp
    rw [ht.mem_decayIds_iff hf]
    constructor
    · rintro ⟨D', p', hD', hp', hmem⟩
      cases hD.symm.trans hD'
      cases hp.symm.trans hp'
      exact hmem
    · exact fun hmem => ⟨D, p, hD, hp, hmem⟩
  constructor
  case listed =>
    intro p P d hP hd
    obtain ⟨hpt, hP⟩ := hg.particle_eq_some.mp hP
    obtain ⟨D, hD, hp⟩ := hf.listed hP hd
    exact ⟨D, hg.decay_eq_some.mpr ⟨fun hmem => hpt ((howner hD hp).mp hmem), hD⟩, hp⟩
  case listedOnce =>
    intro p P hP
    exact hf.listedOnce (hg.particle_eq_some.mp hP).2
  case owner =>
    intro d D p hD hp
    obtain ⟨hdt, hD⟩ := hg.decay_eq_some.mp hD
    obtain ⟨P, hP, hd⟩ := hf.owner hD hp
    exact ⟨P, hg.particle_eq_some.mpr ⟨fun hmem => hdt ((howner hD hp).mpr hmem), hP⟩, hd⟩
  case product =>
    intro d D p q hD hp hq
    obtain ⟨hdt, hD⟩ := hg.decay_eq_some.mp hD
    have hpq := hf.product hD hp hq
    exact hg.parentOf_iff.mpr
      ⟨fun hmem => hdt ((howner hD hp).mpr (ht.parent_mem hf hmem hpq)), hpq⟩
  case productOnce =>
    intro d D p hD hp
    exact hf.productOnce (hg.decay_eq_some.mp hD).2 hp
  case origin =>
    intro p q hpq
    obtain ⟨hqt, hpq⟩ := hg.parentOf_iff.mp hpq
    obtain ⟨d, D, hD, hp, hq⟩ := hf.origin hpq
    refine ⟨d, D, hg.decay_eq_some.mpr ⟨fun hmem => hqt ?_, hD⟩, hp, hq⟩
    exact ht.mem_ids_of_parentOf hf ((howner hD hp).mp hmem) hpq
  case originOnce =>
    intro d d' D D' p p' q hD hD' hp hp'
    exact hf.originOnce (hg.decay_eq_some.mp hD).2 (hg.decay_eq_some.mp hD').2 hp hp'
  case grounded => exact Subrelation.wf (fun hpq => (hg.parentOf_iff.mp hpq).2) hf.grounded

/-- A forest that has grown by some trees has grown by the others once one of them is discarded. -/
theorem Grown.discarded (hf : Linked f) (hg : Grown f g (t :: ts))
    (hh : Discarded g h t.ids t.decayIds) : Grown f h ts := by
  have ht : g.Shows none t := hg.shows List.mem_cons_self
  have hnodup := List.nodup_cons.mp hg.distinct
  have hdisjoint : ∀ {u}, u ∈ ts → List.Disjoint u.ids t.ids := by
    intro u hu
    refine hg.disjoint (List.mem_cons_of_mem t hu) List.mem_cons_self fun heq => ?_
    exact hnodup.1 (heq ▸ List.mem_map_of_mem hu)
  constructor
  case linked => exact hg.linked.discarded ht hh
  case database => exact hh.database.trans hg.database
  case precedes => exact hg.precedes.trans hh.precedes
  case particle? =>
    intro x hx
    have hnot : x ∉ t.ids := fun hmem => hg.fresh List.mem_cons_self hmem hx
    rw [hh.particle_of_not_mem hnot, hg.particle? hx]
  case decay? =>
    intro d hd
    have hnot : d ∉ t.decayIds := fun hmem => hg.freshDecay hf List.mem_cons_self hmem hd
    rw [hh.decay_of_not_mem hnot, hg.decay? hd]
  case shows =>
    intro u hu
    have hug := hg.shows (List.mem_cons_of_mem t hu)
    exact hug.of_agree (fun x hx => hh.particle_of_not_mem (hdisjoint hu hx))
      fun d hd => hh.decay_of_not_mem (hug.disjoint_decayIds ht (hdisjoint hu) hd)
  case distinct => exact hnodup.2
  case fresh =>
    intro u x hu hx
    exact hg.fresh (List.mem_cons_of_mem t hu) hx
  case only =>
    intro x X hX hx
    obtain ⟨hxt, hX⟩ := hh.particle_eq_some.mp hX
    obtain ⟨u, hu, hmem⟩ := hg.only hX hx
    rcases List.mem_cons.mp hu with rfl | hu
    · exact (hxt hmem).elim
    · exact ⟨u, hu, hmem⟩
  case onlyDecay =>
    intro d D hD hd
    obtain ⟨hdt, hD⟩ := hh.decay_eq_some.mp hD
    obtain ⟨u, hu, hmem⟩ := hg.onlyDecay hD hd
    rcases List.mem_cons.mp hu with rfl | hu
    · exact (hdt hmem).elim
    · exact ⟨u, hu, hmem⟩

end Forest

namespace Edit

open Forest

variable {f g : Forest} {p x : ParticleId} {X : Particle} {xs : List ParticleId}
  {parent : Option ParticleId} {t : Tree} {ts : List Tree}

private theorem on_vacateDecays (ds : List DecayId) (f : Forest) :
    ∃ g, (ds.forM fun d => modify fun f => { f with decays := f.decays.remove d.key } : Edit Unit).on f =
      (.ok (), g) ∧ Discarded f g [] ds := by
  induction ds generalizing f with
  | nil => exact ⟨f, rfl, .refl f⟩
  | cons d ds ih =>
    have hstep : Discarded f (f.minusDecay d) [] [d] := by
      refine ⟨.minusDecay f d, rfl, fun x => ?_, fun e => ?_⟩
      · rw [if_neg List.not_mem_nil, particle?_minusDecay]
      · simp only [decay?_minusDecay, List.mem_singleton]
    obtain ⟨g, hrun, hg⟩ := ih (f.minusDecay d)
    exact ⟨g, hrun, hstep.trans hg⟩

theorem on_vacate (hx : f.particle? x = some X) :
    ∃ g, (vacate x).on f = (.ok (), g) ∧ Discarded f g [x] X.decays := by
  have hstep : Discarded f (f.minusParticle x) [x] [] := by
    refine ⟨.minusParticle f x, rfl, fun y => ?_, fun d => ?_⟩
    · simp only [particle?_minusParticle, List.mem_singleton]
    · rw [if_neg List.not_mem_nil, decay?_minusParticle]
  obtain ⟨g, hrun, hg⟩ := on_vacateDecays X.decays (f.minusParticle x)
  refine ⟨g, ?_, hstep.trans hg⟩
  unfold vacate
  rw [on_bind_of_ok (on_get f), hx]
  exact hrun

theorem on_vacate_dead (hx : f.particle? x = none) : (vacate x).on f = (.ok (), f) := by
  unfold vacate
  rw [on_bind_of_ok (on_get f), hx]
  rfl

/-- All particles of a list go, and all decays of these. -/
theorem on_forM_vacate (hnodup : xs.Nodup) (hlive : ∀ x ∈ xs, ∃ X, f.particle? x = some X) :
    ∃ g ds, (xs.forM vacate).on f = (.ok (), g) ∧ Discarded f g xs ds ∧
      ∀ d, d ∈ ds ↔ ∃ x ∈ xs, ∃ X, f.particle? x = some X ∧ d ∈ X.decays := by
  induction xs generalizing f with
  | nil => exact ⟨f, [], rfl, .refl f, by simp⟩
  | cons x xs ih =>
    obtain ⟨hx, hnodup⟩ := List.nodup_cons.mp hnodup
    obtain ⟨X, hX⟩ := hlive x List.mem_cons_self
    obtain ⟨g, hrun, hg⟩ := on_vacate hX
    have hsame : ∀ y ∈ xs, g.particle? y = f.particle? y := by
      intro y hy
      refine hg.particle_of_not_mem fun hmem => hx ?_
      rwa [← List.mem_singleton.mp hmem]
    obtain ⟨h, ds, hruns, hh, hds⟩ := ih hnodup fun y hy => by
      rw [hsame y hy]
      exact hlive y (List.mem_cons_of_mem x hy)
    refine ⟨h, X.decays ++ ds, (on_bind_of_ok hrun).trans hruns, hg.trans hh, fun d => ?_⟩
    rw [List.mem_append, hds, List.exists_mem_cons_iff]
    refine or_congr ?_ ?_
    · constructor
      · exact fun hd => ⟨X, hX, hd⟩
      · rintro ⟨X', hX', hd⟩
        cases hX.symm.trans hX'
        exact hd
    · refine exists_congr fun y => and_congr_right fun hy => ?_
      rw [hsame y hy]

/-- A tree is discarded whole. -/
theorem on_discard (hf : Linked f) (ht : f.Shows none t) :
    ∃ g, (discard t.id).on f = (.ok (), g) ∧ Discarded f g t.ids t.decayIds := by
  obtain ⟨T, hT, hnone, -⟩ := ht.top
  obtain ⟨g, ds, hrun, hg, hds⟩ := on_forM_vacate (ht.nodup_ids hf) fun _ hx => ht.live hx
  have hmem : ∀ d, d ∈ ds ↔ d ∈ t.decayIds := by
    intro d
    rw [hds, ht.mem_decayIds_iff hf]
    constructor
    · rintro ⟨x, hx, X, hX, hd⟩
      obtain ⟨D, hD, hpar⟩ := hf.listed hX hd
      exact ⟨D, x, hD, hpar, hx⟩
    · rintro ⟨D, x, hD, hpar, hx⟩
      obtain ⟨X, hX, hd⟩ := hf.owner hD hpar
      exact ⟨x, hx, X, hX, hd⟩
  refine ⟨g, ?_, ⟨hg.precedes, hg.database, hg.particle?, fun d => ?_⟩⟩
  · unfold Forest.discard
    rw [on_bind_of_ok (on_ask_particle hT), hnone]
    show (do ((← get).preorder t.id).forM vacate : Edit Unit).on f = _
    rw [on_bind_of_ok (on_get f), ht.preorder_eq hf, hrun]
  · rw [hg.decay?]
    simp only [hmem]

/-- A product is not discarded. -/
theorem on_discard_product {P : Particle} {owner : ParticleId} (hp : f.particle? p = some P)
    (hpar : P.parent = some owner) :
    (discard p).on f = (.error (.stillAttached P.type), f) := by
  unfold Forest.discard
  rw [on_bind_of_ok (on_ask_particle hp), hpar]
  rfl

theorem on_discard_grown (hf : Linked f) (hg : Grown f g (t :: ts)) :
    ∃ h, (discard t.id).on g = (.ok (), h) ∧ Grown f h ts := by
  obtain ⟨h, hrun, hh⟩ := on_discard hg.linked (hg.shows List.mem_cons_self)
  exact ⟨h, hrun, hg.discarded hf hh⟩

theorem keeps_discard (p : ParticleId) : Keeps Linked (discard p) := by
  intro f hf
  rcases hp : f.particle? p with _ | P
  · unfold Forest.discard
    rw [on_bind_of_error (on_ask_particle_dead hp)]
    exact hf
  rcases hpar : P.parent with _ | owner
  · obtain ⟨t, ht, rfl⟩ := hf.exists_tree hp
    rw [hpar] at ht
    obtain ⟨g, hrun, hg⟩ := on_discard hf ht
    rw [hrun]
    exact hf.discarded ht hg
  · rw [on_discard_product hp hpar]
    exact hf

end Edit

end DecayForest
