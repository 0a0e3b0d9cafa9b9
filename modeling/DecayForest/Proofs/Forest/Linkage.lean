import DecayForest.Proofs.Forest.Views
import Mathlib.Data.List.Nodup
import Mathlib.Data.List.Perm.Subperm
import Mathlib.Logic.Relation
import Mathlib.Order.RelClasses
/-!
# Linkage

The parent of a particle is told four times: by the particle, by the decay that brings it forth, by
the decay list of the parent and by the product list of the decay. `Forest.Linked` says that these
agree for all decays that belong to a particle, and that parent links do not run in circles. Decays
that belong to no particle may list anything.

In a linked forest every particle has a `Lineage`, which is what `Forest.above` finds, and the
checks before an edit decide what they are meant to decide (`checkProducts_eq_ok`,
`Linked.checkCycle_eq_ok`).
-/

namespace DecayForest.Forest

/-- `p` is the parent of `q`. -/
def ParentOf (f : Forest) (p q : ParticleId) : Prop :=
  (f.particle? q).bind Particle.parent = some p

/-- `p` is `q` itself or stands somewhere above it. -/
def Above (f : Forest) : ParticleId → ParticleId → Prop :=
  Relation.ReflTransGen f.ParentOf

/-- The linkage invariant: what particles and decays say of one another agrees. -/
structure Linked (f : Forest) : Prop where
  listed : ∀ {p P d}, f.particle? p = some P → d ∈ P.decays →
    ∃ D, f.decay? d = some D ∧ D.parent = some p
  listedOnce : ∀ {p P}, f.particle? p = some P → P.decays.Nodup
  owner : ∀ {d D p}, f.decay? d = some D → D.parent = some p →
    ∃ P, f.particle? p = some P ∧ d ∈ P.decays
  product : ∀ {d D p q}, f.decay? d = some D → D.parent = some p → q ∈ D.products →
    f.ParentOf p q
  productOnce : ∀ {d D p}, f.decay? d = some D → D.parent = some p → D.products.Nodup
  origin : ∀ {p q}, f.ParentOf p q →
    ∃ d D, f.decay? d = some D ∧ D.parent = some p ∧ q ∈ D.products
  originOnce : ∀ {d d' D D' p p' q}, f.decay? d = some D → f.decay? d' = some D' →
    D.parent = some p → D'.parent = some p' → q ∈ D.products → q ∈ D'.products → d = d'
  grounded : WellFounded f.ParentOf

/-- The products of some decays. -/
def productsOf (f : Forest) (ds : List DecayId) : List ParticleId :=
  ds.flatMap fun d => ((f.decay? d).map Decay.products).getD []

/-- The particles from one upward, to the root of its tree. -/
inductive Lineage (f : Forest) : ParticleId → List ParticleId → Prop
  | root {q : ParticleId} : (f.particle? q).bind Particle.parent = none → Lineage f q [q]
  | child {p q : ParticleId} {l : List ParticleId} : f.ParentOf p q → Lineage f p l →
    Lineage f q (q :: l)

variable {f : Forest} {p q r x y : ParticleId} {P Q : Particle} {l l' : List ParticleId}

theorem parentOf_iff : f.ParentOf p q ↔ ∃ Q, f.particle? q = some Q ∧ Q.parent = some p :=
  Option.bind_eq_some_iff

theorem ParentOf.live (h : f.ParentOf p q) : ∃ Q, f.particle? q = some Q := by
  obtain ⟨Q, hQ, -⟩ := parentOf_iff.mp h
  exact ⟨Q, hQ⟩

theorem ParentOf.unique (h : f.ParentOf x q) (h' : f.ParentOf y q) : x = y :=
  Option.some.inj (h.symm.trans h')

theorem ParentOf.of_particle? (h : f.particle? q = some Q) (hp : Q.parent = some p) :
    f.ParentOf p q :=
  parentOf_iff.mpr ⟨Q, h, hp⟩

theorem parent_eq_none_iff (h : f.particle? q = some Q) :
    Q.parent = none ↔ ∀ p, ¬ f.ParentOf p q := by
  rw [Option.eq_none_iff_forall_ne_some]
  refine forall_congr' fun p => not_congr ?_
  rw [parentOf_iff]
  constructor
  · exact fun hp => ⟨Q, h, hp⟩
  · rintro ⟨Q', hQ', hp⟩
    cases h.symm.trans hQ'
    exact hp

theorem mem_productsOf {ds : List DecayId} :
    q ∈ f.productsOf ds ↔ ∃ d ∈ ds, ∃ D, f.decay? d = some D ∧ q ∈ D.products := by
  simp only [productsOf, List.mem_flatMap]
  refine exists_congr fun d => and_congr_right fun _ => ?_
  rcases f.decay? d with _ | D <;> simp

namespace Above

theorem refl : f.Above p p := Relation.ReflTransGen.refl

theorem cases_tail (h : f.Above x q) : x = q ∨ ∃ p, f.Above x p ∧ f.ParentOf p q := by
  rcases Relation.ReflTransGen.cases_tail h with rfl | h
  · exact .inl rfl
  · exact .inr h

theorem live (h : f.Above p q) (hp : f.particle? p = some P) : ∃ Q, f.particle? q = some Q := by
  rcases h.cases_tail with rfl | ⟨x, -, hx⟩
  · exact ⟨P, hp⟩
  · exact hx.live

theorem eq_of_root (h : f.Above x q) (hq : ∀ p, ¬ f.ParentOf p q) : x = q := by
  rcases h.cases_tail with rfl | ⟨p, -, hp⟩
  · rfl
  · exact (hq p hp).elim

theorem of_parentOf (h : f.Above x q) (hne : x ≠ q) (hp : f.ParentOf p q) : f.Above x p := by
  rcases h.cases_tail with rfl | ⟨y, hy, hyq⟩
  · exact (hne rfl).elim
  · rwa [hp.unique hyq]

/-- Of two particles above a third, one stands above the other. -/
theorem total (hx : f.Above x q) (hy : f.Above y q) : f.Above x y ∨ f.Above y x := by
  induction hx with
  | refl => exact .inr hy
  | tail hxp hp ih =>
    rcases hy.cases_tail with rfl | ⟨z, hz, hzq⟩
    · exact .inl (hxp.tail hp)
    · rw [hzq.unique hp] at hz
      exact ih hz

end Above

namespace Lineage

theorem mem_iff (h : f.Lineage q l) : x ∈ l ↔ f.Above x q := by
  induction h with
  | @root q hq =>
    rw [List.mem_singleton]
    constructor
    · rintro rfl
      exact .refl
    · refine fun hx => hx.eq_of_root fun p hp => ?_
      cases hq.symm.trans hp
  | @child p q l hp _ ih =>
    rw [List.mem_cons, ih]
    constructor
    · rintro (rfl | hx)
      · exact .refl
      · exact .tail hx hp
    · intro hx
      by_cases hne : x = q
      · exact .inl hne
      · exact .inr (hx.of_parentOf hne hp)

theorem aboveFrom_eq (h : f.Lineage q l) {n : Nat} (hn : l.length ≤ n + 1) :
    f.aboveFrom n q = l := by
  induction h generalizing n with
  | root hq => cases n <;> simp [aboveFrom, hq]
  | child hp hl ih =>
    cases n with
    | zero => cases hl <;> simp at hn
    | succ n =>
      unfold ParentOf at hp
      simp only [aboveFrom, hp]
      rw [ih (Nat.le_of_succ_le_succ hn)]

/-- A lineage ends at a root. -/
theorem last (h : f.Lineage q l) (z : ParticleId) :
    ∃ r, l.getLastD z = r ∧ f.Above r q ∧ ∀ p, ¬ f.ParentOf p r := by
  induction h generalizing z with
  | @root q hq => exact ⟨q, rfl, .refl, fun p hp => by cases hq.symm.trans hp⟩
  | @child p q l hp _ ih =>
    obtain ⟨r, hr, hrp, hroot⟩ := ih q
    exact ⟨r, by rw [List.getLastD_cons, hr], hrp.tail hp, hroot⟩

end Lineage

theorem Linked.empty (database : Database) : Linked { database } := by
  have hparticle : ∀ x, ({ database } : Forest).particle? x = none := fun _ => rfl
  have hdecay : ∀ d, ({ database } : Forest).decay? d = none := fun _ => rfl
  constructor
  case listed => intro p P d hP; cases (hparticle p).symm.trans hP
  case listedOnce => intro p P hP; cases (hparticle p).symm.trans hP
  case owner => intro d D p hD; cases (hdecay d).symm.trans hD
  case product => intro d D p q hD; cases (hdecay d).symm.trans hD
  case productOnce => intro d D p hD; cases (hdecay d).symm.trans hD
  case origin => exact nofun
  case originOnce => intro d d' D D' p p' q hD; cases (hdecay d).symm.trans hD
  case grounded => exact ⟨fun _ => .intro _ nofun⟩

namespace Linked

theorem acyclic (hf : Linked f) (p : ParticleId) : ¬ Relation.TransGen f.ParentOf p p :=
  fun h => hf.grounded.transGen.asymmetric p p h h

theorem not_above_of_parentOf (hf : Linked f) (h : f.ParentOf p q) : ¬ f.Above q p :=
  fun hqp => hf.acyclic p (.head' h hqp)

theorem live_of_parentOf (hf : Linked f) (h : f.ParentOf p q) : ∃ P, f.particle? p = some P := by
  obtain ⟨d, D, hD, hp, -⟩ := hf.origin h
  obtain ⟨P, hP, -⟩ := hf.owner hD hp
  exact ⟨P, hP⟩

theorem live_of_above (hf : Linked f) (h : f.Above x q) (hq : f.particle? q = some Q) :
    ∃ X, f.particle? x = some X := by
  rcases Relation.ReflTransGen.cases_head h with rfl | ⟨y, hy, -⟩
  · exact ⟨Q, hq⟩
  · exact hf.live_of_parentOf hy

theorem exists_lineage (hf : Linked f) (q : ParticleId) : ∃ l, f.Lineage q l := by
  induction q using hf.grounded.induction with
  | _ q ih =>
    rcases hp : (f.particle? q).bind Particle.parent with _ | p
    · exact ⟨[q], .root hp⟩
    · obtain ⟨l, hl⟩ := ih p hp
      exact ⟨q :: l, .child hp hl⟩

theorem lineage_nodup (hf : Linked f) (h : f.Lineage q l) : l.Nodup := by
  induction h with
  | root => exact List.nodup_singleton _
  | child hp hl ih =>
    refine List.nodup_cons.mpr ⟨fun hq => ?_, ih⟩
    exact hf.not_above_of_parentOf hp (hl.mem_iff.mp hq)

theorem lineage_length_le (hf : Linked f) (h : f.Lineage q l) (hq : f.particle? q = some Q) :
    l.length ≤ f.room :=
  length_le_room (hf.lineage_nodup h) fun _ hx => hf.live_of_above (h.mem_iff.mp hx) hq

theorem lineage_above (hf : Linked f) (q : ParticleId) : f.Lineage q (f.above q) := by
  obtain ⟨l, hl⟩ := hf.exists_lineage q
  rcases hq : f.particle? q with _ | Q
  · cases hl with
    | root h =>
      rw [above, (Lineage.root h).aboveFrom_eq (Nat.le_add_left 1 _)]
      exact .root h
    | child hp => simp [ParentOf, hq] at hp
  · have hlen := hf.lineage_length_le hl hq
    rw [above, hl.aboveFrom_eq (Nat.le_succ_of_le hlen)]
    exact hl

theorem mem_above (hf : Linked f) : x ∈ f.above q ↔ f.Above x q :=
  (hf.lineage_above q).mem_iff

/-- The root of a particle: the one without a parent above it. -/
theorem rootOf_eq (hf : Linked f) (hq : f.particle? q = some Q) :
    ∃ r R, f.rootOf q = .ok r ∧ f.Above r q ∧ f.particle? r = some R ∧ R.parent = none := by
  obtain ⟨r, hr, hrq, hroot⟩ := (hf.lineage_above q).last q
  obtain ⟨R, hR⟩ := hf.live_of_above hrq hq
  refine ⟨r, R, ?_, hrq, hR, (parent_eq_none_iff hR).mpr hroot⟩
  rw [rootOf, hr, particle_of_some hR]
  rfl

/-- The root of a particle is told by any root above it. -/
theorem rootOf_eq_iff (hf : Linked f) (hq : f.particle? q = some Q) (hp : f.particle? p = some P)
    (hroot : P.parent = none) : f.rootOf q = .ok p ↔ f.Above p q := by
  obtain ⟨r, R, hr, hrq, hR, hnone⟩ := hf.rootOf_eq hq
  constructor
  · intro h
    cases hr.symm.trans h
    exact hrq
  · intro hpq
    rcases hpq.total hrq with h | h
    · rw [hr, h.eq_of_root ((parent_eq_none_iff hR).mp hnone)]
    · rw [hr, h.eq_of_root ((parent_eq_none_iff hp).mp hroot)]

theorem checkCycle_eq_ok (hf : Linked f) (hp : f.particle? p = some P) (products : List ParticleId) :
    f.checkCycle p products = .ok () ↔ ∀ q ∈ products, ¬ f.Above q p := by
  obtain ⟨r, -, hr, -⟩ := hf.rootOf_eq hp
  unfold checkCycle
  split
  · next a ha =>
    refine iff_of_false nofun fun h => ?_
    have hmem := List.mem_of_find?_eq_some ha
    have hprod := List.find?_some ha
    exact h a (List.contains_iff_mem.mp hprod) (hf.mem_above.mp hmem)
  · next hnone =>
    rw [hr]
    refine iff_of_true rfl fun q hq habove => ?_
    have := List.find?_eq_none.mp hnone q (hf.mem_above.mpr habove)
    exact this (List.contains_iff_mem.mpr hq)

theorem checkCycle_error (hf : Linked f) {products : List ParticleId}
    (h : ∃ q ∈ products, f.Above q p) : ∃ n, f.checkCycle p products = .error (.cycle n) := by
  unfold checkCycle
  split
  · exact ⟨_, rfl⟩
  · next hnone =>
    obtain ⟨q, hq, habove⟩ := h
    have := List.find?_eq_none.mp hnone q (hf.mem_above.mpr habove)
    exact (this (List.contains_iff_mem.mpr hq)).elim

end Linked

/-! ### The check of products -/

/-- A particle that a decay may take as its product, where those in `freed` count as not owned. -/
def Free (f : Forest) (freed : List ParticleId) (q : ParticleId) : Prop :=
  ∃ Q, f.particle? q = some Q ∧ (Q.parent = none ∨ q ∈ freed)

theorem checkProductsFrom_eq_ok (freed seen products : List ParticleId) :
    f.checkProductsFrom freed seen products = .ok () ↔
      products.Nodup ∧ (∀ q ∈ products, q ∉ seen) ∧ ∀ q ∈ products, f.Free freed q := by
  induction products generalizing seen with
  | nil => simp [checkProductsFrom]
  | cons q products ih =>
    rw [checkProductsFrom]
    rcases hq : f.particle? q with _ | Q
    · rw [particle_of_none hq]
      refine iff_of_false nofun fun h => ?_
      obtain ⟨Q, hQ, -⟩ := h.2.2 q List.mem_cons_self
      cases hq.symm.trans hQ
    · rw [particle_of_some hq]
      show (if Q.parent.isSome && !freed.contains q then _ else _) = _ ↔ _
      by_cases hfree : Q.parent.isSome && !freed.contains q
      · rw [if_pos hfree]
        refine iff_of_false nofun fun h => ?_
        obtain ⟨Q', hQ', h'⟩ := h.2.2 q List.mem_cons_self
        cases hq.symm.trans hQ'
        simp_all
      · rw [if_neg hfree]
        have hq' : f.Free freed q := ⟨Q, hq, by
          rcases hpar : Q.parent with _ | p <;> simp_all⟩
        show (if seen.contains q then _ else _) = _ ↔ _
        by_cases hseen : seen.contains q
        · rw [if_pos hseen]
          refine iff_of_false nofun fun h => ?_
          exact h.2.1 q List.mem_cons_self (List.contains_iff_mem.mp hseen)
        · rw [if_neg hseen]
          refine (ih (q :: seen)).trans ?_
          simp only [List.contains_iff_mem] at hseen
          rw [List.nodup_cons, List.forall_mem_cons, List.forall_mem_cons]
          simp only [List.mem_cons, not_or]
          constructor
          · rintro ⟨hnodup, hnew, hall⟩
            exact ⟨⟨fun h => (hnew q h).1 rfl, hnodup⟩, ⟨hseen, fun x hx => (hnew x hx).2⟩, hq', hall⟩
          · rintro ⟨⟨hnot, hnodup⟩, ⟨-, hnew⟩, -, hall⟩
            refine ⟨hnodup, fun x hx => ⟨?_, hnew x hx⟩, hall⟩
            rintro rfl
            exact hnot hx

theorem checkProducts_eq_ok (freed products : List ParticleId) :
    f.checkProducts freed products = .ok () ↔
      products.Nodup ∧ ∀ q ∈ products, f.Free freed q := by
  rw [checkProducts, checkProductsFrom_eq_ok]
  simp

/-- Live products are refused for a breach of the linkage rules only. -/
theorem checkProductsFrom_error {freed seen products : List ParticleId} {e : ModelError}
    (hlive : ∀ q ∈ products, ∃ Q, f.particle? q = some Q)
    (h : f.checkProductsFrom freed seen products = .error e) : e.isConsistency := by
  induction products generalizing seen with
  | nil => cases h
  | cons q products ih =>
    obtain ⟨Q, hQ⟩ := hlive q List.mem_cons_self
    rw [checkProductsFrom, particle_of_some hQ] at h
    change (if Q.parent.isSome && !freed.contains q then _ else _) = _ at h
    split at h
    · cases h
      rfl
    · change (if seen.contains q then _ else _) = _ at h
      split at h
      · cases h
        rfl
      · exact ih (fun x hx => hlive x (List.mem_cons_of_mem q hx)) h

end DecayForest.Forest
