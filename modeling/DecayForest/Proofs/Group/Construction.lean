import DecayForest.Proofs.Forest.Copying
import DecayForest.Proofs.Forest.Naming
import DecayForest.Proofs.Group.Edges
/-!
# Construction of forests from statements

`Built f names table edges` ties a forest under construction to what the statements have said so far:
every known identifier is one particle, with the type and the parameters in the table, and its decays
are its edges in order. Each step of `Building` keeps this up. A decay is refused exactly if it would
make an identifier a target twice or let one feed itself (`Built.checkAddition_iff`).
-/

namespace DecayForest.Building

open Forest Edit

/-- `d` is the decay of `p` that an edge describes. -/
def Drawn (f : Forest) (names : Names) (p : ParticleId) (e : Edge) (d : DecayId) : Prop :=
  ∃ qs serial, List.Forall₂ (fun b q => names.lookup b = some q) e.targets qs ∧
    f.decay? d = some ⟨qs, e.params, some p, serial⟩

/-- A forest holds what statements have said so far, and nothing else. -/
structure Built (f : Forest) (names : Names) (table : Table) (edges : List Edge) : Prop where
  linked : Linked f
  serials : DistinctSerials f
  entry : ∀ {a p}, names.lookup a = some p → ∃ P, f.particle? p = some P ∧
    table a = some (P.type, P.params) ∧
    List.Forall₂ (Drawn f names p) (edges.filter (·.source = a)) P.decays
  known : ∀ {a entry}, table a = some entry → ∃ p, names.lookup a = some p
  onto : ∀ {x X}, f.particle? x = some X → ∃ a, names.lookup a = some x
  injective : ∀ {a b p}, names.lookup a = some p → names.lookup b = some p → a = b
  owned : ∀ {d D}, f.decay? d = some D → ∃ p, D.parent = some p
  source : ∀ {e}, e ∈ edges → ∃ p, names.lookup e.source = some p

/-- Whatever was known is known still. -/
def Extends (names names' : Names) : Prop :=
  ∀ a p, names.lookup a = some p → names'.lookup a = some p

variable {f g : Forest} {names names' names'' : Names} {table : Table} {edges : List Edge} {e : Edge}
  {a b name type : String} {params defaults : ParamList} {p q : ParticleId} {P : Particle}
  {d : DecayId} {qs : List ParticleId}

theorem Extends.refl (names : Names) : Extends names names := fun _ _ => id

theorem Extends.trans (h : Extends names names') (h' : Extends names' names'') :
    Extends names names'' := fun a p ha => h' a p (h a p ha)

theorem Extends.cons (h : names.lookup name = none) (p : ParticleId) :
    Extends names ((name, p) :: names) := by
  intro a q ha
  have hne : a ≠ name := by
    rintro rfl
    cases h.symm.trans ha
  rwa [List.lookup_cons, beq_false_of_ne hne]

theorem lookup_cons_cases (h : List.lookup a ((name, q) :: names) = some p) :
    a = name ∧ p = q ∨ a ≠ name ∧ names.lookup a = some p := by
  by_cases hne : a = name
  · subst hne
    rw [List.lookup_cons_self] at h
    exact .inl ⟨rfl, (Option.some.inj h).symm⟩
  · rw [List.lookup_cons, beq_false_of_ne hne] at h
    exact .inr ⟨hne, h⟩

theorem eq_map_of_lookups {targets : List String}
    (h : List.Forall₂ (fun b q => names.lookup b = some q) targets qs) :
    qs = targets.map fun b => (names.lookup b).getD ⟨0, 0⟩ := by
  induction h with
  | nil => rfl
  | cons hbq _ ih => rw [List.map_cons, hbq, ← ih]; rfl

theorem Drawn.mono (h : Drawn f names p e d) (hnames : Extends names names')
    (hdecay : ∀ D, f.decay? d = some D → g.decay? d = some D) : Drawn g names' p e d := by
  obtain ⟨qs, n, hqs, hd⟩ := h
  exact ⟨qs, n, hqs.imp fun b q hb => hnames b q hb, hdecay _ hd⟩

namespace Built

theorem empty (database : Database) : Built { database } [] (fun _ => none) [] where
  linked := .empty database
  serials := .empty database
  entry := nofun
  known := nofun
  onto {x X} hX := by cases (show ({ database } : Forest).particle? x = none from rfl).symm.trans hX
  injective := nofun
  owned {d D} hD := by cases (show ({ database } : Forest).decay? d = none from rfl).symm.trans hD
  source := nofun

theorem table_eq_none (hb : Built f names table edges) (h : names.lookup a = none) :
    table a = none := by
  rcases ha : table a with _ | entry
  · rfl
  · obtain ⟨p, hp⟩ := hb.known ha
    cases h.symm.trans hp

theorem live (hb : Built f names table edges) (h : names.lookup a = some p) :
    ∃ P, f.particle? p = some P := by
  obtain ⟨P, hP, -⟩ := hb.entry h
  exact ⟨P, hP⟩

theorem ne_next (hb : Built f names table edges) (h : names.lookup a = some p) :
    p ≠ f.nextParticle := by
  obtain ⟨P, hP⟩ := hb.live h
  exact ne_next_of_spent (spent_of_particle? hP)

theorem filter_source_eq_nil (hb : Built f names table edges) (h : names.lookup a = none) :
    edges.filter (·.source = a) = [] := by
  refine List.filter_eq_nil_iff.mpr fun e he hsource => ?_
  obtain ⟨p, hp⟩ := hb.source he
  rw [of_decide_eq_true hsource] at hp
  cases h.symm.trans hp

/-- An identifier that was not known becomes a new particle. -/
theorem add (hb : Built f names table edges) (hname : names.lookup name = none) (type : String)
    (params : ParamList) :
    Built (f.plusParticle type params) ((name, f.nextParticle) :: names)
      (Function.update table name (some (type, params))) edges := by
  have hextends : Extends names ((name, f.nextParticle) :: names) := .cons hname _
  constructor
  case linked => exact hb.linked.plusParticle type params
  case serials => exact lasting_distinctSerials.plusParticle type params hb.serials
  case entry =>
    intro a p ha
    rcases lookup_cons_cases ha with ⟨rfl, rfl⟩ | ⟨hne, ha⟩
    · refine ⟨_, (particle?_plusParticle ..).trans (if_pos rfl), Function.update_self .., ?_⟩
      rw [hb.filter_source_eq_nil hname]
      exact .nil
    · obtain ⟨P, hP, htable, hdecays⟩ := hb.entry ha
      refine ⟨P, ?_, by rw [Function.update_of_ne hne, htable],
        hdecays.imp fun e d hd => hd.mono hextends fun _ => id⟩
      rw [particle?_plusParticle_of_spent (spent_of_particle? hP), hP]
  case known =>
    intro a entry ha
    by_cases hne : a = name
    · exact ⟨_, by rw [hne, List.lookup_cons_self]⟩
    · rw [Function.update_of_ne hne] at ha
      obtain ⟨p, hp⟩ := hb.known ha
      exact ⟨p, hextends _ _ hp⟩
  case onto =>
    intro x X hX
    rw [particle?_plusParticle] at hX
    split at hX
    · next hx => exact ⟨name, hx ▸ List.lookup_cons_self⟩
    · obtain ⟨a, ha⟩ := hb.onto hX
      exact ⟨a, hextends _ _ ha⟩
  case injective =>
    intro a b p ha hb'
    rcases lookup_cons_cases ha with ⟨hna, hpa⟩ | ⟨-, hna⟩ <;>
      rcases lookup_cons_cases hb' with ⟨hnb, hpb⟩ | ⟨-, hnb⟩
    · rw [hna, hnb]
    · exact (hb.ne_next hnb hpa).elim
    · exact (hb.ne_next hna hpb).elim
    · exact hb.injective hna hnb
  case owned => exact hb.owned
  case source =>
    intro e he
    obtain ⟨p, hp⟩ := hb.source he
    exact ⟨p, hextends _ _ hp⟩

/-- A known identifier gets another type and other parameters. -/
theorem change (hb : Built f names table edges) (hname : names.lookup name = some p)
    (hP : f.particle? p = some P) (type : String) (params : ParamList) :
    Built (f.mapParticle p fun P => { P with type, params }) names
      (Function.update table name (some (type, params))) edges := by
  have hdecay : ∀ d D, f.decay? d = some D →
      (f.mapParticle p fun P => { P with type, params }).decay? d = some D :=
    fun d D hD => by rw [decay?_mapParticle, hD]
  constructor
  case linked => exact hb.linked.mapParticle (by exact fun _ => rfl) p
  case serials =>
    refine hb.serials.of_le rfl fun he => ?_
    rwa [serial?_mapParticle (by exact fun _ => rfl)] at he
  case entry =>
    intro a q ha
    obtain ⟨Q, hQ, htable, hdecays⟩ := hb.entry ha
    have hdecays' := hdecays.imp fun e d hd =>
      Drawn.mono (g := f.mapParticle p fun P => { P with type, params }) hd (.refl names) (hdecay d)
    by_cases hne : a = name
    · subst hne
      cases hname.symm.trans ha
      refine ⟨{ Q with type, params }, ?_, Function.update_self .., hdecays'⟩
      rw [particle?_mapParticle, if_pos rfl, hQ]
      rfl
    · refine ⟨Q, ?_, by rw [Function.update_of_ne hne, htable], hdecays'⟩
      rw [particle?_mapParticle, if_neg, hQ]
      rintro rfl
      exact hne (hb.injective ha hname)
  case known =>
    intro a entry ha
    by_cases hne : a = name
    · exact ⟨p, hne ▸ hname⟩
    · rw [Function.update_of_ne hne] at ha
      exact hb.known ha
  case onto =>
    intro x X hX
    rw [particle?_mapParticle] at hX
    split at hX
    · next hx => exact ⟨name, hx ▸ hname⟩
    · exact hb.onto hX
  case injective => exact hb.injective
  case owned =>
    intro d D hD
    rw [decay?_mapParticle] at hD
    exact hb.owned hD
  case source => exact hb.source

/-- The parent of a particle is told by the edges. -/
theorem parentOf_iff (hb : Built f names table edges) :
    f.ParentOf p q ↔ ∃ a b, names.lookup a = some p ∧ names.lookup b = some q ∧ Leads edges a b := by
  constructor
  · intro hpq
    obtain ⟨d, D, hD, hpar, hq⟩ := hb.linked.origin hpq
    obtain ⟨P, hP, hd⟩ := hb.linked.owner hD hpar
    obtain ⟨a, ha⟩ := hb.onto hP
    obtain ⟨P', hP', -, hdecays⟩ := hb.entry ha
    cases hP.symm.trans hP'
    obtain ⟨e, he, qs, n, hqs, hd'⟩ := exists_left_of_forall₂ hdecays hd
    cases hD.symm.trans hd'
    obtain ⟨he, hsource⟩ := List.mem_filter.mp he
    obtain ⟨b, hbt, hbq⟩ := exists_left_of_forall₂ hqs hq
    exact ⟨a, b, ha, hbq, e, he, of_decide_eq_true hsource, hbt⟩
  · rintro ⟨a, b, ha, hbq, e, he, rfl, hbt⟩
    obtain ⟨P, hP, -, hdecays⟩ := hb.entry ha
    obtain ⟨d, hd, qs, n, hqs, hD⟩ := exists_right_of_forall₂ hdecays
      (List.mem_filter.mpr ⟨he, decide_eq_true rfl⟩)
    obtain ⟨q', hq', hbq'⟩ := exists_right_of_forall₂ hqs hbt
    cases hbq.symm.trans hbq'
    exact hb.linked.product hD rfl hq'

theorem target (hb : Built f names table edges) (h : Leads edges a b) :
    ∃ q, names.lookup b = some q := by
  obtain ⟨e, he, rfl, hbt⟩ := h
  obtain ⟨p, hp⟩ := hb.source he
  obtain ⟨P, -, -, hdecays⟩ := hb.entry hp
  obtain ⟨d, -, qs, n, hqs, -⟩ := exists_right_of_forall₂ hdecays
    (List.mem_filter.mpr ⟨he, decide_eq_true rfl⟩)
  obtain ⟨q, -, hq⟩ := exists_right_of_forall₂ hqs hbt
  exact ⟨q, hq⟩

/-- What leads to what is what stands above what. -/
theorem above_of_leads (hb : Built f names table edges) (h : Relation.ReflTransGen (Leads edges) a b)
    (ha : names.lookup a = some p) : ∃ q, names.lookup b = some q ∧ f.Above p q := by
  induction h with
  | refl => exact ⟨p, ha, .refl⟩
  | tail _ hbc ih =>
    obtain ⟨q, hq, hpq⟩ := ih
    obtain ⟨r, hr⟩ := hb.target hbc
    exact ⟨r, hr, hpq.tail (hb.parentOf_iff.mpr ⟨_, _, hq, hr, hbc⟩)⟩

theorem leads_of_above (hb : Built f names table edges) (h : f.Above p q)
    (hq : names.lookup b = some q) :
    ∃ a, names.lookup a = some p ∧ Relation.ReflTransGen (Leads edges) a b := by
  induction h using Relation.ReflTransGen.head_induction_on with
  | refl => exact ⟨b, hq, .refl⟩
  | head hxy _ ih =>
    obtain ⟨c, hc, hcb⟩ := ih
    obtain ⟨a, c', ha, hc', hac⟩ := hb.parentOf_iff.mp hxy
    cases hb.injective hc hc'
    exact ⟨a, ha, .head hac hcb⟩

/-- As long as all decays are accepted, nothing leads to itself. -/
theorem acyclic (hb : Built f names table edges) (a : String) :
    ¬ Relation.TransGen (Leads edges) a a := by
  intro h
  obtain ⟨b, hab, hba⟩ := Relation.TransGen.head'_iff.mp h
  obtain ⟨e, he, rfl, hbt⟩ := id hab
  obtain ⟨p, hp⟩ := hb.source he
  obtain ⟨q, hq⟩ := hb.target hab
  obtain ⟨p', hp', hqp⟩ := hb.above_of_leads hba hq
  cases hp.symm.trans hp'
  exact hb.linked.not_above_of_parentOf (hb.parentOf_iff.mpr ⟨_, b, hp, hq, hab⟩) hqp

variable (hb : Built f names table edges)
  (hqs : List.Forall₂ (fun b q => names.lookup b = some q) e.targets qs)
include hb hqs

/-- The targets of an accepted decay are new, each of them once. -/
theorem nodup_targets_of_check (hnodup : (edges.flatMap Edge.targets).Nodup)
    (hcheck : f.checkAddition p qs = .ok ()) : ((edges ++ [e]).flatMap Edge.targets).Nodup := by
  obtain ⟨-, -, hproducts⟩ := checkAddition_eq_ok.mp hcheck
  obtain ⟨hqnodup, hfree⟩ := (checkProducts_eq_ok [] qs).mp hproducts
  rw [List.flatMap_append, List.flatMap_singleton, List.nodup_append]
  refine ⟨hnodup, List.Nodup.of_map _ (eq_map_of_lookups hqs ▸ hqnodup), ?_⟩
  rintro b hbe _ hbt rfl
  obtain ⟨e', he', hbt'⟩ := List.mem_flatMap.mp hbe
  obtain ⟨x, hx⟩ := hb.source he'
  obtain ⟨q, hq, hbq⟩ := exists_right_of_forall₂ hqs hbt
  exact (hfree q hq).not_parentOf (hb.parentOf_iff.mpr ⟨_, b, hx, hbq, e', he', rfl, hbt'⟩)

theorem nodup_particles (hnodup : e.targets.Nodup) : qs.Nodup := by
  rw [eq_map_of_lookups hqs]
  refine hnodup.map_on fun b hbt c hct heq => ?_
  obtain ⟨q, -, hbq⟩ := exists_right_of_forall₂ hqs hbt
  obtain ⟨r, -, hcr⟩ := exists_right_of_forall₂ hqs hct
  rw [hbq, hcr] at heq
  exact hb.injective hbq (hcr.trans (congrArg some heq.symm))

/-- What is no target yet has no parent. -/
theorem free_particles (hnew : ∀ b ∈ e.targets, b ∉ edges.flatMap Edge.targets) :
    ∀ q ∈ qs, f.Free [] q := by
  intro q hq
  obtain ⟨b, hbt, hbq⟩ := exists_left_of_forall₂ hqs hq
  obtain ⟨Q, hQ⟩ := hb.live hbq
  refine ⟨Q, hQ, .inl ((parent_eq_none_iff hQ).mpr fun x hxq => ?_)⟩
  obtain ⟨a, b', -, hbq', e', he', -, hbt'⟩ := hb.parentOf_iff.mp hxq
  cases hb.injective hbq hbq'
  exact hnew b hbt (List.mem_flatMap.mpr ⟨e', he', hbt'⟩)

variable (hp : names.lookup e.source = some p)
include hp

/-- An accepted decay is one more edge. -/
theorem withDecay (hcheck : f.checkAddition p qs = .ok ()) :
    Built (f.withDecay p qs e.params) names table (edges ++ [e]) := by
  have hdecay : ∀ d D, f.decay? d = some D → (f.withDecay p qs e.params).decay? d = some D :=
    fun d D hD => decay?_withDecay_of_some hD ..
  constructor
  case linked => exact hb.linked.withDecay_of_check hcheck
  case serials =>
    have hkept := lasting_distinctSerials.addDecay p qs e.params f hb.serials
    rwa [on_addDecay, hcheck] at hkept
  case entry =>
    intro a x ha
    obtain ⟨X, hX, htable, hdecays⟩ := hb.entry ha
    have hdecays' := hdecays.imp fun e' d hd =>
      Drawn.mono (g := f.withDecay p qs e.params) hd (.refl names) (hdecay d)
    have hX' := particle?_withDecay f p qs e.params x
    rw [hX, Option.map_some] at hX'
    refine ⟨_, hX', htable, ?_⟩
    rw [List.filter_append]
    by_cases hsource : e.source = a
    · subst hsource
      cases hp.symm.trans ha
      have hone : [e].filter (·.source = e.source) = [e] := by simp
      rw [hone]
      simp only [if_true]
      exact List.rel_append hdecays' (.cons ⟨qs, _, hqs, decay?_withDecay_self ..⟩ .nil)
    · have hnil : [e].filter (·.source = a) = [] := by simpa using hsource
      rw [hnil, List.append_nil]
      have hne : x ≠ p := by
        rintro rfl
        exact hsource (hb.injective hp ha)
      simp only [if_neg hne]
      exact hdecays'
  case known => exact hb.known
  case onto =>
    intro x X hX
    rw [particle?_withDecay] at hX
    obtain ⟨X₀, hX₀, -⟩ := Option.map_eq_some_iff.mp hX
    exact hb.onto hX₀
  case injective => exact hb.injective
  case owned =>
    intro d D hD
    by_cases hne : d = f.nextDecay
    · subst hne
      cases (decay?_withDecay_self ..).symm.trans hD
      exact ⟨p, rfl⟩
    · rw [decay?_withDecay_of_ne _ _ _ _ hne] at hD
      exact hb.owned hD
  case source =>
    intro e' he'
    rcases List.mem_append.mp he' with he' | he'
    · exact hb.source he'
    · cases List.mem_singleton.mp he'
      exact ⟨p, hp⟩

/-- A decay is accepted exactly if no identifier becomes a target twice and nothing comes to lead to
itself. -/
theorem checkAddition_iff (hnodup : (edges.flatMap Edge.targets).Nodup) :
    f.checkAddition p qs = .ok () ↔ ((edges ++ [e]).flatMap Edge.targets).Nodup ∧
      ∀ a, ¬ Relation.TransGen (Leads (edges ++ [e])) a a := by
  constructor
  · intro hcheck
    exact ⟨hb.nodup_targets_of_check hqs hnodup hcheck, (hb.withDecay hqs hp hcheck).acyclic⟩
  · rintro ⟨hall, hacyclic⟩
    rw [List.flatMap_append, List.flatMap_singleton, List.nodup_append] at hall
    obtain ⟨-, htnodup, hdisjoint⟩ := hall
    obtain ⟨P, hP⟩ := hb.live hp
    refine checkAddition_eq_ok.mpr ⟨⟨P, hP⟩, (hb.linked.checkCycle_eq_ok hP qs).mpr ?_,
      (checkProducts_eq_ok [] qs).mpr ⟨hb.nodup_particles hqs htnodup, ?_⟩⟩
    · -- A product above the particle would lead to the source, and the new edge leads back.
      intro q hq habove
      obtain ⟨b, hbt, hbq⟩ := exists_left_of_forall₂ hqs hq
      obtain ⟨b', hbq', hreach⟩ := hb.leads_of_above habove hp
      cases hb.injective hbq hbq'
      refine hacyclic e.source (.head' ⟨e, by simp, rfl, hbt⟩ ?_)
      exact Relation.ReflTransGen.mono (fun _ _ (h : Leads edges _ _) => h.append [e]) _ _ hreach
    · exact hb.free_particles hqs fun b hbt hmem => hdisjoint b hmem b hbt rfl

end Built

end DecayForest.Building
