import DecayForest.Forest.Expansion
import DecayForest.Proofs.Forest.Copying
import DecayForest.Proofs.Forest.Discarding
/-!
# Reachable forests

`Forest.Reachable` holds of every forest that a sequence of operations makes of an empty one. The
operations take any arguments, dead handles too, and may fail half-way. Only the copy of a decay is
bound (`Operation.Admitted`): it counts where it succeeds, and the handle of the new parent must not be
one that this forest has yet to give out, for such a handle could become that of a particle of the copy
itself. No caller has a handle of that kind. Each operation keeps the linkage invariant, so all these
forests are linked.
-/

namespace DecayForest

namespace Edit

open Forest

variable {f g h : Forest} {p : ParticleId} {d e : DecayId}

/-- An edit without its answer. -/
def void {α : Type} (x : Edit α) : Edit Unit :=
  (fun _ => ()) <$> x

theorem on_void {α : Type} (x : Edit α) (f : Forest) :
    x.void.on f = ((x.on f).1.map fun _ => (), (x.on f).2) :=
  on_map _ x f

theorem Keeps.void {α : Type} {I : Forest → Prop} {x : Edit α} (hx : Keeps I x) : Keeps I x.void :=
  hx.map _

theorem keeps_copy (p : ParticleId) : Keeps Linked (copy p) :=
  .bind (.ask _) fun _ => keeps_addParticle _ _

theorem keeps_copyTree (p : ParticleId) : Keeps Linked (copyTree p) := by
  intro f hf
  rcases hp : f.particle? p with _ | P
  · rw [on_copyTree_dead hp]
    exact hf
  · obtain ⟨t, ht, rfl⟩ := hf.exists_tree hp
    obtain ⟨g, u, hrun, hg, -⟩ := on_copyTree hf ht
    rw [hrun]
    exact hg.linked

theorem keeps_copyFreeDecay (d : DecayId) : Keeps Linked (copyFreeDecay d) :=
  .bind (.ask _) fun D =>
    .bind (.mapM D.products fun q _ => keeps_copyTree q) fun qs => keeps_addFreeDecay qs _

/-- Copies of several trees, where all of them succeed. -/
theorem grown_of_mapM_copyTree (hf : Linked f) {l ys : List ParticleId}
    (hrun : (l.mapM copyTree).on f = (.ok ys, g)) :
    ∃ us, Grown f g us ∧ ys = us.map Tree.id := by
  induction l generalizing f ys with
  | nil =>
    cases hrun
    exact ⟨[], .refl hf, rfl⟩
  | cons x l ih =>
    rw [List.mapM_cons, on_bind_eq_ok] at hrun
    obtain ⟨y, f', hcopy, hrest⟩ := hrun
    rw [on_bind_eq_ok] at hrest
    obtain ⟨ys, g', hcopies, hpure⟩ := hrest
    cases hpure
    rcases hx : f.particle? x with _ | X
    · rw [on_copyTree_dead hx] at hcopy
      cases hcopy
    · obtain ⟨t, ht, rfl⟩ := hf.exists_tree hx
      obtain ⟨f'', u, hrun, hgrown, -⟩ := on_copyTree hf ht
      cases hrun.symm.trans hcopy
      obtain ⟨us, hgrowns, rfl⟩ := ih hgrown.linked hcopies
      exact ⟨u :: us, hgrown.trans hgrowns, rfl⟩

/-- A copied decay goes to its new parent, if that is no handle of the copy itself. -/
theorem linked_of_copyDecay (hf : Linked f) (hp : f.Spent p)
    (hrun : (copyDecay d p).on f = (.ok e, h)) : Linked h := by
  unfold copyDecay at hrun
  rw [on_bind_eq_ok] at hrun
  obtain ⟨copied, g', hcopy, hrest⟩ := hrun
  unfold copyFreeDecay at hcopy
  rw [on_bind_eq_ok] at hcopy
  obtain ⟨D, f', hask, hcopy⟩ := hcopy
  rw [on_ask] at hask
  obtain ⟨-, rfl⟩ := Prod.mk.inj hask
  rw [on_bind_eq_ok] at hcopy
  obtain ⟨ys, g, hcopies, hadd⟩ := hcopy
  obtain ⟨us, hg, rfl⟩ := grown_of_mapM_copyTree hf hcopies
  have hcycle : ∀ q ∈ us.map Tree.id, ¬ g.Above q p := by
    intro q hq habove
    obtain ⟨u, hu, rfl⟩ := List.mem_map.mp hq
    have hmem := ((hg.shows hu).mem_ids_iff hg.linked).mpr habove
    exact hg.fresh hu hmem hp
  rw [on_addFreeDecay, hg.checkProducts] at hadd
  cases hadd
  rcases hpg : g.particle? p with _ | P
  · rw [on_bind_of_error (on_attach_new_dead hpg hg.checkProducts D.params)] at hrest
    cases hrest
  · rw [on_bind_of_ok (on_attach_new hpg hg.checkProducts D.params)] at hrest
    cases hrest
    exact hg.linked.withDecay hpg hg.distinct hg.free hcycle

theorem keeps_resolve (p : ParticleId) (fraction : Option Float) (params : ParamList)
    (combination : List Alternative) : Keeps Linked (resolve p fraction params combination) :=
  .bind (keeps_copy p) fun root =>
    .bind (.mapM combination fun a _ => keeps_copyTree a.root) fun chosen =>
      .bind (keeps_addFreeDecay chosen params) fun decay =>
        .bind (keeps_adoptDecay root decay ∅) fun _ => .pure _

/-- An expansion resolves and discards, and looks at the forest for the rest. -/
theorem Keeps.expandFrom {I : Forest → Prop}
    (hresolve : ∀ p fraction params combination, Keeps I (resolve p fraction params combination))
    (hdiscard : ∀ p, Keeps I (Forest.discard p)) (room : Nat) (p : ParticleId) :
    Keeps I (Forest.expandFrom room p) := by
  induction room generalizing p with
  | zero => exact .bind (.ask _) fun _ => .pure _
  | succ room ih =>
    refine .bind (.ask _) fun P => ?_
    split
    · exact .pure _
    · refine .bind (.mapM P.decays fun d _ => ?_) fun _ => .pure _
      refine .bind (.ask _) fun fraction => .bind (.ask _) fun D => ?_
      refine .bind (.mapM D.products fun q _ => ih q) fun alternatives => ?_
      refine .bind (.mapM _ fun choice _ => hresolve p fraction D.params choice) fun _ => ?_
      refine .bind (.forM _ fun entry _ => ?_) fun _ => .pure _
      exact .forM _ fun a _ => hdiscard a.root

theorem Keeps.expand {I : Forest → Prop}
    (hresolve : ∀ p fraction params combination, Keeps I (resolve p fraction params combination))
    (hdiscard : ∀ p, Keeps I (Forest.discard p)) (p : ParticleId) (limit : Nat) :
    Keeps I (Forest.expand p limit) := by
  have hrest := Keeps.expandFrom hresolve hdiscard (maxDepth + 1) p
  refine .bind (.ask _) fun t => ?_
  dsimp only
  split
  · exact .bind .get fun _ => .bind (.throw _) fun _ => hrest
  · exact hrest

theorem keeps_expand (p : ParticleId) (limit : Nat) : Keeps Linked (expand p limit) :=
  Keeps.expand keeps_resolve keeps_discard p limit

end Edit

/-- An operation on a forest, with its arguments. -/
inductive Operation where
  | addParticle (type : String) (params : ParamList)
  | putParam (id : ParticleId) (name : String) (v : Value)
  | putDecayParam (id : DecayId) (name : String) (v : Value)
  | addFreeDecay (products : List ParticleId) (params : ParamList)
  | addDecay (id : ParticleId) (products : List ParticleId) (params : ParamList)
  | adoptDecay (id : ParticleId) (decay : DecayId) (params : ParamList)
  | setDecay (id : ParticleId) (products : List ParticleId) (params : ParamList)
  | adoptOnly (id : ParticleId) (decay : DecayId) (params : ParamList)
  | removeDecay (id : ParticleId) (decay : DecayId)
  | copy (id : ParticleId)
  | copyTree (id : ParticleId)
  | copyFreeDecay (decay : DecayId)
  | copyDecay (decay : DecayId) (parent : ParticleId)
  | discard (id : ParticleId)
  | expand (id : ParticleId) (limit : Nat)

namespace Operation

/-- What an operation does, less its answer. -/
def edit : Operation → Edit Unit
  | addParticle type params => (Forest.addParticle type params).void
  | putParam id name v => Forest.putParam id name v
  | putDecayParam id name v => Forest.putDecayParam id name v
  | addFreeDecay products params => (Forest.addFreeDecay products params).void
  | addDecay id products params => (Forest.addDecay id products params).void
  | adoptDecay id decay params => (Forest.adoptDecay id decay params).void
  | setDecay id products params => (Forest.setDecay id products params).void
  | adoptOnly id decay params => (Forest.adoptOnly id decay params).void
  | removeDecay id decay => Forest.removeDecay id decay
  | copy id => (Forest.copy id).void
  | copyTree id => (Forest.copyTree id).void
  | copyFreeDecay decay => (Forest.copyFreeDecay decay).void
  | copyDecay decay parent => (Forest.copyDecay decay parent).void
  | discard id => Forest.discard id
  | expand id limit => (Forest.expand id limit).void

/-- The forest after an operation. -/
def after (op : Operation) (f : Forest) : Forest :=
  (op.edit.on f).2

/-- An operation succeeds. -/
def Succeeds (op : Operation) (f : Forest) : Prop :=
  (op.edit.on f).1 = .ok ()

/-- Copies of decays count where they succeed. The parent for one is any handle that has been given out,
be it dead by now. This excludes only handles which the forest has never given out and which a particle
of the copy itself could therefore get. -/
def Admitted (f : Forest) : Operation → Prop
  | copyFreeDecay decay => (copyFreeDecay decay).Succeeds f
  | copyDecay decay parent => (copyDecay decay parent).Succeeds f ∧ f.Spent parent
  | _ => True

end Operation

namespace Forest

/-- A forest that operations make of an empty one. -/
inductive Reachable : Forest → Prop
  | empty (database : Database) : Reachable { database }
  | step {f : Forest} (op : Operation) : Reachable f → op.Admitted f → Reachable (op.after f)

end Forest

namespace Operation

open Forest Edit

/-- Every operation keeps a forest linked, whether it succeeds or fails. -/
theorem linked_after (op : Operation) {f : Forest} (hf : Linked f) (hop : op.Admitted f) :
    Linked (op.after f) := by
  cases op with
  | addParticle type params => exact (keeps_addParticle type params).void f hf
  | putParam id name v => exact keeps_modifyParticle (by exact fun _ => rfl) id f hf
  | putDecayParam id name v => exact keeps_modifyDecay (by exact fun _ => rfl) id f hf
  | addFreeDecay products params => exact (keeps_addFreeDecay products params).void f hf
  | addDecay id products params => exact (keeps_addDecay id products params).void f hf
  | adoptDecay id decay params => exact (keeps_adoptDecay id decay params).void f hf
  | setDecay id products params => exact (keeps_setDecay id products params).void f hf
  | adoptOnly id decay params => exact (keeps_adoptOnly id decay params).void f hf
  | removeDecay id decay => exact keeps_removeDecay id decay f hf
  | copy id => exact (keeps_copy id).void f hf
  | copyTree id => exact (keeps_copyTree id).void f hf
  | copyFreeDecay decay => exact (keeps_copyFreeDecay decay).void f hf
  | copyDecay decay parent =>
    obtain ⟨hok, hparent⟩ := hop
    change (((Forest.copyDecay decay parent).void).on f).1 = _ at hok
    show Linked (((Forest.copyDecay decay parent).void).on f).2
    rw [on_void] at hok ⊢
    rcases hrun : (Forest.copyDecay decay parent).on f with ⟨e | a, g⟩
    · rw [hrun] at hok
      cases hok
    · exact linked_of_copyDecay hf hparent hrun
  | discard id => exact keeps_discard id f hf
  | expand id limit => exact (keeps_expand id limit).void f hf

end Operation

namespace Forest

variable {f : Forest}

theorem Reachable.linked (h : Reachable f) : Linked f := by
  induction h with
  | empty database => exact .empty database
  | step op _ hop ih => exact op.linked_after ih hop

/-- What the four records of a link say in a reachable forest. A decay in a decay list is live, is
listed once and names the particle as its parent. A decay with a parent is in the list of that
parent, which is also the parent of all its products. A particle with a parent is the product of one
decay with a parent, and of no other; that decay lists it once and has the same parent. No particle
is above itself. -/
theorem Reachable.links_agree (h : Reachable f) :
    (∀ p P d, f.particle? p = some P → d ∈ P.decays →
      P.decays.count d = 1 ∧ ∃ D, f.decay? d = some D ∧ D.parent = some p) ∧
    (∀ d D p, f.decay? d = some D → D.parent = some p →
      (∃ P, f.particle? p = some P ∧ d ∈ P.decays) ∧
      ∀ q ∈ D.products, ∃ Q, f.particle? q = some Q ∧ Q.parent = some p) ∧
    (∀ p q Q, f.particle? q = some Q → Q.parent = some p →
      ∃ d D, f.decay? d = some D ∧ D.parent = some p ∧ D.products.count q = 1 ∧
        ∀ d' D' p', f.decay? d' = some D' → D'.parent = some p' → q ∈ D'.products → d' = d) ∧
    ∀ p, ¬ Relation.TransGen f.ParentOf p p := by
  have hf := h.linked
  refine ⟨fun p P d hP hd => ⟨?_, hf.listed hP hd⟩, fun d D p hD hp => ⟨hf.owner hD hp, ?_⟩,
    fun p q Q hQ hp => ?_, hf.acyclic⟩
  · exact List.count_eq_one_of_mem (hf.listedOnce hP) hd
  · exact fun q hq => parentOf_iff.mp (hf.product hD hp hq)
  · obtain ⟨d, D, hD, hpar, hq⟩ := hf.origin (.of_particle? hQ hp)
    refine ⟨d, D, hD, hpar, List.count_eq_one_of_mem (hf.productOnce hD hpar) hq, ?_⟩
    exact fun d' D' p' hD' hp' hq' => hf.originOnce hD' hD hp' hpar hq' hq

/-- A particle with one decay into another, beside a copy of both. -/
def copiedPair : Forest :=
  Operation.copyTree ⟨0, 0⟩ |>.after <| Operation.addDecay ⟨0, 0⟩ [⟨1, 0⟩] ∅ |>.after <|
    Operation.addParticle "b" ∅ |>.after <| Operation.addParticle "a" ∅ |>.after {}

theorem links_agree_copiedPair :
    ∃ d D, copiedPair.decay? d = some D ∧ D.parent = some ⟨2, 0⟩ ∧ D.products.count ⟨3, 0⟩ = 1 := by
  have hreach : Reachable copiedPair :=
    .step _ (.step _ (.step _ (.step _ (.empty {}) trivial) trivial) trivial) trivial
  obtain ⟨d, D, hD, hp, hcount, -⟩ :=
    hreach.links_agree.2.2.1 ⟨2, 0⟩ ⟨3, 0⟩ ⟨"b", ∅, some ⟨2, 0⟩, [], 4⟩ rfl rfl
  exact ⟨d, D, hD, hp, hcount⟩

end Forest

end DecayForest
