import DecayForest.Proofs.Forest.Reachability
import Mathlib.Data.Set.Basic
/-!
# How particles get a parent

Copies and expansions link new particles only. A particle that is already there gets a parent where an
operation succeeds that lists it as a product (`Operation.Links`), and in no other way
(`Operation.not_parentOf_after`). This holds of every forest, linked or not, and of every operation,
whether it succeeds or fails half-way.
-/

namespace DecayForest

namespace Forest

/-- A decay lists a particle as one of its products. -/
def Lists (f : Forest) (d : DecayId) (x : ParticleId) : Prop :=
  ∃ D, f.decay? d = some D ∧ x ∈ D.products

/-- Particles of an earlier forest `f₀` have no parent, and only such decays list them as did so in `f₀`.
The latter is why giving a new decay to some particle does not touch them. -/
structure Spared (X : Set ParticleId) (f₀ f : Forest) : Prop where
  handle : ∀ {x}, x ∈ X → f₀.Spent x
  precedes : Precedes f₀ f
  parent : ∀ {x p}, x ∈ X → ¬ f.ParentOf p x
  lists : ∀ {x d}, x ∈ X → f.Lists d x → f₀.Lists d x

variable {X : Set ParticleId} {f₀ f g : Forest} {x : ParticleId} {d : DecayId}

theorem not_lists_of_not_spent (hd : ¬ f.SpentDecay d) : ¬ f.Lists d x := by
  rintro ⟨D, hD, -⟩
  exact hd (spent_of_decay? hD)

namespace Spared

theorem refl (hspent : ∀ x ∈ X, f.Spent x) (hnone : ∀ x ∈ X, ∀ p, ¬ f.ParentOf p x) :
    Spared X f f where
  handle hx := hspent _ hx
  precedes := .refl f
  parent hx := hnone _ hx _
  lists _ h := h

/-- The particles are spared still where they get no parent and no decay lists them anew. -/
theorem next (hf : Spared X f₀ f) (hprecedes : Precedes f g)
    (hparent : ∀ x ∈ X, ∀ p, g.ParentOf p x → f.ParentOf p x)
    (hlists : ∀ x ∈ X, ∀ d, g.Lists d x → f.Lists d x) : Spared X f₀ g where
  handle := hf.handle
  precedes := hf.precedes.trans hprecedes
  parent hx h := hf.parent hx (hparent _ hx _ h)
  lists hx h := hf.lists hx (hlists _ hx _ h)

theorem plusParticle (hf : Spared X f₀ f) (type : String) (params : ParamList) :
    Spared X f₀ (f.plusParticle type params) := by
  refine hf.next (.plusParticle f type params) (fun x hx p h => ?_) fun _ _ _ h => h
  rwa [ParentOf, particle?_plusParticle_of_spent (hf.precedes.spent (hf.handle hx))] at h

theorem plusDecay (hf : Spared X f₀ f) {products : List ParticleId} (h : ∀ x ∈ X, x ∉ products)
    (params : ParamList) : Spared X f₀ (f.plusDecay products params) := by
  refine hf.next (.plusDecay f products params) (fun _ _ _ h => h) fun x hx d hd => ?_
  obtain ⟨D, hD, hmem⟩ := hd
  rw [decay?_plusDecay] at hD
  split at hD
  · cases hD
    exact (h x hx hmem).elim
  · exact ⟨D, hD, hmem⟩

theorem mapParticle (hf : Spared X f₀ f) {id : ParticleId} {change : Particle → Particle}
    (h : id ∈ X → ∀ P, (change P).parent = P.parent ∨ (change P).parent = none) :
    Spared X f₀ (f.mapParticle id change) := by
  refine hf.next (.of_frame (frame_mapParticle ..)) (fun x hx p hp => ?_) fun x hx d hd => ?_
  · rw [parentOf_iff, particle?_mapParticle] at hp
    obtain ⟨Q, hQ, hp⟩ := hp
    split at hQ
    · next hid =>
      subst hid
      obtain ⟨P, hP, rfl⟩ := Option.map_eq_some_iff.mp hQ
      rcases h hx P with hsame | hnone
      · exact .of_particle? hP (hsame ▸ hp)
      · cases hnone.symm.trans hp
    · exact .of_particle? hQ hp
  · rwa [Lists, decay?_mapParticle] at hd

theorem mapDecay (hf : Spared X f₀ f) {change : Decay → Decay}
    (h : ∀ D, (change D).products = D.products) : Spared X f₀ (f.mapDecay d change) := by
  refine hf.next (.of_frame (frame_mapDecay ..)) (fun x hx p hp => ?_) fun x hx y hy => ?_
  · rwa [ParentOf, particle?_mapDecay] at hp
  · obtain ⟨D, hD, hmem⟩ := hy
    rw [decay?_mapDecay] at hD
    split at hD
    · next hyd =>
      subst hyd
      obtain ⟨D', hD', rfl⟩ := Option.map_eq_some_iff.mp hD
      exact ⟨D', hD', h D' ▸ hmem⟩
    · exact ⟨D, hD, hmem⟩

theorem discarded (hf : Spared X f₀ f) {xs : List ParticleId} {ds : List DecayId}
    (h : Discarded f g xs ds) : Spared X f₀ g := by
  refine hf.next h.precedes (fun x hx p hp => (h.parentOf_iff.mp hp).2) ?_
  rintro x - d ⟨D, hD, hmem⟩
  exact ⟨D, (h.decay_eq_some.mp hD).2, hmem⟩

end Spared

end Forest

namespace Edit

open Forest

variable {X : Set ParticleId} {f₀ : Forest} {p : ParticleId} {d : DecayId}
  {products : List ParticleId} {params : ParamList} {table : List (ParticleId × ParticleId)}

theorem spares_modifyParticle {change : Particle → Particle}
    (h : p ∈ X → ∀ P, (change P).parent = P.parent ∨ (change P).parent = none) :
    Keeps (Spared X f₀) (modifyParticle p change) := by
  intro f hf
  rcases hp : f.particle? p with _ | P
  · rw [on_modifyParticle_dead hp]
    exact hf
  · rw [on_modifyParticle hp]
    exact hf.mapParticle h

theorem spares_modifyDecay {change : Decay → Decay} (h : ∀ D, (change D).products = D.products) :
    Keeps (Spared X f₀) (modifyDecay d change) := by
  intro f hf
  rcases hd : f.decay? d with _ | D
  · rw [on_modifyDecay_dead hd]
    exact hf
  · rw [on_modifyDecay hd]
    exact hf.mapDecay h

/-! ### Links -/

theorem ensures_addParticle (type : String) (params : ParamList) :
    Ensures (Spared X f₀) (addParticle type params) fun q => ¬ f₀.Spent q := by
  intro f hf
  refine ⟨hf.plusParticle type params, ?_⟩
  rintro _ ⟨⟩
  exact fun hspent => f.not_spent_next (hf.precedes.spent hspent)

theorem ensures_addFreeDecay (h : ∀ x ∈ X, x ∉ products) :
    Ensures (Spared X f₀) (addFreeDecay products params) fun d => ¬ f₀.SpentDecay d := by
  intro f hf
  rw [on_addFreeDecay]
  split
  · refine ⟨hf.plusDecay h params, ?_⟩
    rintro _ ⟨⟩
    exact fun hspent => f.not_spentDecay_next (hf.precedes.spentDecay hspent)
  · exact ⟨hf, nofun⟩

theorem ensures_addFreeDecay_new (h : ∀ q ∈ products, ¬ f₀.Spent q) :
    Ensures (Spared X f₀) (addFreeDecay products params) fun d => ¬ f₀.SpentDecay d :=
  fun f hf => ensures_addFreeDecay (fun x hx hmem => h x hmem (hf.handle hx)) f hf

theorem ensures_ask_decay (h : ∀ x ∈ X, ¬ f₀.Lists d x) :
    Ensures (Spared X f₀) (ask (·.decay d)) fun D => ∀ x ∈ X, x ∉ D.products := by
  intro f hf
  rw [on_ask]
  exact ⟨hf, fun D hD x hx hmem => h x hx (hf.lists hx ⟨D, decay_eq_ok.mp hD, hmem⟩)⟩

theorem spares_attach (h : ∀ x ∈ X, ¬ f₀.Lists d x) : Keeps (Spared X f₀) (attach p d) := by
  refine .after (ensures_ask_decay h) fun D hD => ?_
  refine .bind (.forM _ fun q hq => spares_modifyParticle fun hqX => (hD q hqX hq).elim) fun _ => ?_
  exact .bind (spares_modifyDecay fun _ => rfl) fun _ => spares_modifyParticle fun _ _ => .inl rfl

theorem spares_detach (d : DecayId) : Keeps (Spared X f₀) (detach d) :=
  .bind (.ask _) fun _ =>
    .bind (.forM _ fun _ _ => spares_modifyParticle fun _ _ => .inr rfl) fun _ =>
      spares_modifyDecay fun _ => rfl

theorem spares_addDecay (h : ∀ x ∈ X, x ∉ products) :
    Keeps (Spared X f₀) (addDecay p products params) := by
  refine .bind (.ask _) fun _ => .bind (.ask _) fun _ => ?_
  refine .after (ensures_addFreeDecay h) fun d hd => ?_
  exact .bind (spares_attach fun _ _ => not_lists_of_not_spent hd) fun _ => .pure _

theorem spares_adoptDecay (h : ∀ x ∈ X, ¬ f₀.Lists d x) :
    Keeps (Spared X f₀) (adoptDecay p d params) := by
  refine .bind (.ask _) fun _ => .bind (.ask _) fun D => ?_
  split
  · exact .bind .get fun _ => .after (.throw _) fun _ => False.elim
  · refine .bind (.ask _) fun _ => .bind (.ask _) fun _ => ?_
    refine .bind (spares_modifyDecay fun _ => rfl) fun _ => ?_
    exact .bind (spares_attach h) fun _ => .pure _

theorem spares_clearDecays (p : ParticleId) (ds : List DecayId) :
    Keeps (Spared X f₀) (clearDecays p ds) :=
  .bind (spares_modifyParticle fun _ _ => .inl rfl) fun _ => .forM _ fun d _ => spares_detach d

theorem spares_removeDecay (p : ParticleId) (d : DecayId) :
    Keeps (Spared X f₀) (removeDecay p d) := by
  refine .bind (.ask _) fun P => ?_
  split
  · exact .bind (spares_modifyParticle fun _ _ => .inl rfl) fun _ => spares_detach d
  · exact .after (.throw _) fun _ => False.elim

/-- The decay goes to a particle that has given up its own ones. -/
private theorem spares_replacement {α : Type} {last : Edit α} {ds : List DecayId}
    {freed : List ParticleId} (hlast : Keeps (Spared X f₀) last) :
    Keeps (Spared X f₀) (do
      ask (·.checkReplacement p freed products)
      clearDecays p ds
      last) :=
  .bind (.ask _) fun _ => .bind (spares_clearDecays p ds) fun _ => hlast

theorem spares_setDecay (h : ∀ x ∈ X, x ∉ products) :
    Keeps (Spared X f₀) (setDecay p products params) :=
  .bind (.ask _) fun _ => spares_replacement (spares_addDecay h)

theorem spares_adoptOnly (h : ∀ x ∈ X, ¬ f₀.Lists d x) :
    Keeps (Spared X f₀) (adoptOnly p d params) := by
  refine .bind (.ask _) fun _ => .bind (.ask _) fun D => ?_
  have hrest : Keeps (Spared X f₀) (adoptDecay p d params) := spares_adoptDecay h
  split
  · dsimp only
    split
    · exact spares_replacement hrest
    · exact .bind .get fun _ => .after (.throw _) fun _ => False.elim
  · exact spares_replacement hrest

/-! ### Copies and expansions -/

theorem ensures_copy (p : ParticleId) :
    Ensures (Spared X f₀) (copy p) fun q => ¬ f₀.Spent q :=
  .bind (Keeps.ensures (.ask _)) fun _ _ => ensures_addParticle _ _

/-- Copies in a table of new particles are new. -/
theorem spares_copyDecays (htable : ∀ e ∈ table, ¬ f₀.Spent e.2) (p : ParticleId) :
    Keeps (Spared X f₀) (copyDecays table p) := by
  refine .bind (.lift _) fun parent => .bind (.ask _) fun P => .forM _ fun d _ => ?_
  refine .bind (.ask _) fun D => ?_
  refine .after (Q := fun products => ∀ q ∈ products, ¬ f₀.Spent q)
    (.lift fun products hrun q hq => ?_) fun products hproducts => ?_
  · obtain ⟨_, -, hq⟩ := exists_left_of_forall₂ (forall₂_of_mapM_eq_ok hrun) hq
    exact htable _ (mem_of_copyOf hq)
  · exact .after (ensures_addFreeDecay_new hproducts) fun d hd =>
      spares_attach fun _ _ => not_lists_of_not_spent hd

theorem ensures_copyTree (p : ParticleId) :
    Ensures (Spared X f₀) (copyTree p) fun q => ¬ f₀.Spent q := by
  refine .bind (Keeps.ensures (.ask _)) fun _ _ => .bind (Keeps.ensures .get) fun f _ => ?_
  refine .bind (.mapM _ fun q _ => ensures_copy q) fun copies hcopies => ?_
  have htable : ∀ e ∈ (f.preorder p).zip copies, ¬ f₀.Spent e.2 :=
    fun e he => hcopies e.2 (List.of_mem_zip he).2
  refine .bind (Keeps.ensures (.forM _ fun q _ => spares_copyDecays htable q)) fun _ _ => ?_
  exact .lift fun q hq => htable _ (mem_of_copyOf hq)

theorem ensures_copyFreeDecay (d : DecayId) :
    Ensures (Spared X f₀) (copyFreeDecay d) fun e => ¬ f₀.SpentDecay e :=
  .bind (Keeps.ensures (.ask _)) fun D _ =>
    .bind (.mapM D.products fun q _ => ensures_copyTree q) fun _ => ensures_addFreeDecay_new

theorem spares_copyDecay (d : DecayId) (p : ParticleId) : Keeps (Spared X f₀) (copyDecay d p) :=
  .after (ensures_copyFreeDecay d) fun _ he =>
    .bind (spares_attach fun _ _ => not_lists_of_not_spent he) fun _ => .pure _

theorem spares_vacate (p : ParticleId) : Keeps (Spared X f₀) (vacate p) := by
  intro f hf
  rcases hp : f.particle? p with _ | P
  · rwa [on_vacate_dead hp]
  · obtain ⟨g, hrun, hg⟩ := on_vacate hp
    rw [hrun]
    exact hf.discarded hg

theorem spares_discard (p : ParticleId) : Keeps (Spared X f₀) (discard p) := by
  refine .bind (.ask _) fun P => ?_
  split
  · exact .after (.throw _) fun _ => False.elim
  · exact .bind .get fun f => .forM _ fun q _ => spares_vacate q

theorem spares_resolve (p : ParticleId) (fraction : Option Float) (params : ParamList)
    (combination : List Alternative) :
    Keeps (Spared X f₀) (resolve p fraction params combination) := by
  refine .bind (ensures_copy p).keeps fun root => ?_
  refine .after (.mapM combination fun a _ => ensures_copyTree a.root) fun chosen hchosen => ?_
  refine .after (ensures_addFreeDecay_new hchosen) fun d hd => ?_
  exact .bind (spares_adoptDecay fun _ _ => not_lists_of_not_spent hd) fun _ => .pure _

theorem spares_expand (p : ParticleId) (limit : Nat) : Keeps (Spared X f₀) (expand p limit) :=
  Keeps.expand spares_resolve spares_discard p limit

/-! ### Refused links -/

theorem KeepsRefused.void {α : Type} {I : Forest → Prop} {x : Edit α} (hx : KeepsRefused I x) :
    KeepsRefused I x.void := by
  intro f hf e g hrun
  rw [on_void] at hrun
  rcases hx' : x.on f with ⟨e' | a, g'⟩ <;> rw [hx'] at hrun <;> cases hrun
  exact hx f hf e _ hx'

theorem keepsRefused_addDecay {I : Forest → Prop} : KeepsRefused I (addDecay p products params) :=
  .of_atomic fun _ => atomic_addDecay

theorem keepsRefused_adoptDecay {I : Forest → Prop} : KeepsRefused I (adoptDecay p d params) :=
  .of_atomic fun _ => atomic_adoptDecay

private theorem keepsRefused_replacement {α : Type} {last : Edit α} {ds : List DecayId}
    {freed : List ParticleId} (hlast : KeepsRefused (Spared X f₀) last) :
    KeepsRefused (Spared X f₀) (do
      ask (·.checkReplacement p freed products)
      clearDecays p ds
      last) :=
  .after (.ask _) fun _ => .after (spares_clearDecays p ds) fun _ => hlast

theorem keepsRefused_setDecay : KeepsRefused (Spared X f₀) (setDecay p products params) :=
  .after (.ask _) fun _ => keepsRefused_replacement keepsRefused_addDecay

theorem keepsRefused_adoptOnly : KeepsRefused (Spared X f₀) (adoptOnly p d params) := by
  refine .after (.ask _) fun _ => .after (.ask _) fun D => ?_
  split
  · dsimp only
    split
    · exact keepsRefused_replacement keepsRefused_adoptDecay
    · exact .after .get fun _ => (Keeps.after (.throw _) fun _ => False.elim).keepsRefused
  · exact keepsRefused_replacement keepsRefused_adoptDecay

end Edit

/-! ### Operations -/

namespace Operation

open Forest Edit

/-- An operation lists a particle as a product of the decay that it gives to another. -/
def Offers (f : Forest) (x : ParticleId) : Operation → Prop
  | addDecay _ products _ | setDecay _ products _ => x ∈ products
  | adoptDecay _ decay _ | adoptOnly _ decay _ => f.Lists decay x
  | _ => False

/-- An operation gives a particle a parent: it lists the particle as a product, and succeeds. -/
def Links (f : Forest) (x : ParticleId) (op : Operation) : Prop :=
  op.Offers f x ∧ op.Succeeds f

variable {X : Set ParticleId} {f₀ f : Forest} {x p : ParticleId}

/-- Particles that an operation does not list are spared by it. -/
theorem spares (op : Operation) (h : ∀ x ∈ X, ¬ op.Offers f₀ x)
    (hfree : ∀ products params, op = addFreeDecay products params → ∀ x ∈ X, x ∉ products) :
    Keeps (Spared X f₀) op.edit := by
  cases op with
  | addParticle type params => exact (ensures_addParticle type params).keeps.void
  | putParam id name v => exact spares_modifyParticle fun _ _ => .inl rfl
  | putDecayParam id name v => exact spares_modifyDecay fun _ => rfl
  | addFreeDecay products params => exact (ensures_addFreeDecay (hfree _ _ rfl)).keeps.void
  | addDecay id products params => exact (spares_addDecay h).void
  | adoptDecay id decay params => exact (spares_adoptDecay h).void
  | setDecay id products params => exact (spares_setDecay h).void
  | adoptOnly id decay params => exact (spares_adoptOnly h).void
  | removeDecay id decay => exact spares_removeDecay id decay
  | copy id => exact (ensures_copy id).keeps.void
  | copyTree id => exact (ensures_copyTree id).keeps.void
  | copyFreeDecay decay => exact (ensures_copyFreeDecay decay).keeps.void
  | copyDecay decay parent => exact (spares_copyDecay decay parent).void
  | discard id => exact spares_discard id
  | expand id limit => exact (spares_expand id limit).void

/-- An operation that offers a particle and is refused spares it all the same. -/
theorem spares_refused (op : Operation) (hx : op.Offers f x) (hop : ¬ op.Succeeds f)
    (hf : Spared X f₀ f) : Spared X f₀ (op.after f) := by
  rcases hrun : op.edit.on f with ⟨e | ⟨⟩, g⟩
  · rw [after, hrun]
    cases op with
    | addDecay id products params => exact keepsRefused_addDecay.void f hf e g hrun
    | adoptDecay id decay params => exact keepsRefused_adoptDecay.void f hf e g hrun
    | setDecay id products params => exact keepsRefused_setDecay.void f hf e g hrun
    | adoptOnly id decay params => exact keepsRefused_adoptOnly.void f hf e g hrun
    | _ => exact hx.elim
  · exact (hop (by rw [Succeeds, hrun])).elim

/-- A particle without a parent has none after an operation, unless the operation gives it one. -/
theorem not_parentOf_after (op : Operation) (hx : f.Spent x)
    (hnone : ∀ p, ¬ f.ParentOf p x) (hop : ¬ op.Links f x) (p : ParticleId) :
    ¬ (op.after f).ParentOf p x := by
  have hf : Spared {x} f f := .refl (by rintro _ rfl; exact hx) (by rintro _ rfl; exact hnone)
  by_cases hoffers : op.Offers f x
  · exact (op.spares_refused hoffers (fun h => hop ⟨hoffers, h⟩) hf).parent rfl
  · by_cases hfree : ∃ products params, op = addFreeDecay products params
    · obtain ⟨products, params, rfl⟩ := hfree
      -- a decay that belongs to no particle may list anything
      change ¬ ((Forest.addFreeDecay products params).void.on f).2.ParentOf p x
      rw [on_void, on_addFreeDecay]
      split
      · exact hnone p
      · exact hnone p
    · exact (op.spares (by rintro _ rfl; exact hoffers)
        (fun products params h => (hfree ⟨products, params, h⟩).elim) f hf).parent rfl

end Operation

end DecayForest
