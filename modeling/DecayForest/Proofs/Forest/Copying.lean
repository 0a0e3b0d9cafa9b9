import DecayForest.Forest.Copy
import DecayForest.Proofs.Forest.Growth
/-!
# Copies of trees

`copyTree` makes one new particle for each particle of a tree and then gives every new particle the
copies of the decays of its source. While it does, the new particles mirror their sources as far as
these have been gone through (`Copying`), so that no check can fail. Afterwards the tree of the copy
is the tree of the source with other handles (`Shows.mirror`).
-/

namespace DecayForest

namespace Forest

variable {f g h : Forest} {p q x y : ParticleId} {P X : Particle} {d : DecayId} {D : Decay}
  {products : List ParticleId} {params : ParamList} {parent parent' : Option ParticleId}
  {t u : Tree} {ts : List Tree} {c : ParticleId → ParticleId}

/-! ### A new decay -/

theorem Precedes.withDecay (f : Forest) (p : ParticleId) (products : List ParticleId)
    (params : ParamList) : Precedes f (f.withDecay p products params) :=
  (Precedes.plusDecay f products params).trans (.of_frame (frame_attached ..))

@[simp] theorem database_withDecay (f : Forest) (p : ParticleId) (products : List ParticleId)
    (params : ParamList) : (f.withDecay p products params).database = f.database := by
  simp [withDecay]

theorem particle?_withDecay (f : Forest) (p : ParticleId) (products : List ParticleId)
    (params : ParamList) (x : ParticleId) :
    (f.withDecay p products params).particle? x = (f.particle? x).map fun X => { X with
      parent := if x ∈ products then some p else X.parent
      decays := if x = p then X.decays ++ [f.nextDecay] else X.decays } := by
  rw [withDecay, particle?_attached, particle?_plusDecay]

theorem decay?_withDecay_self (f : Forest) (p : ParticleId) (products : List ParticleId)
    (params : ParamList) : (f.withDecay p products params).decay? f.nextDecay =
      some ⟨products, params, some p, f.nextSerial⟩ := by
  rw [withDecay, decay?_attached, if_pos rfl, decay?_plusDecay_self]
  rfl

theorem decay?_withDecay_of_ne (f : Forest) (p : ParticleId) (products : List ParticleId)
    (params : ParamList) (hd : d ≠ f.nextDecay) :
    (f.withDecay p products params).decay? d = f.decay? d := by
  rw [withDecay, decay?_attached, if_neg hd, decay?_plusDecay, if_neg hd]

theorem decay?_withDecay_of_spent (h : f.SpentDecay d) (p : ParticleId) (products : List ParticleId)
    (params : ParamList) : (f.withDecay p products params).decay? d = f.decay? d :=
  decay?_withDecay_of_ne _ _ _ _ (ne_nextDecay_of_spent h)

theorem decay?_withDecay_of_some (h : f.decay? d = some D) (p : ParticleId)
    (products : List ParticleId) (params : ParamList) :
    (f.withDecay p products params).decay? d = some D := by
  rw [decay?_withDecay_of_spent (spent_of_decay? h), h]

theorem parentOf_withDecay (hfree : ∀ q ∈ products, f.Free [] q) :
    (f.withDecay p products params).ParentOf x q ↔
      q ∈ products ∧ x = p ∨ q ∉ products ∧ f.ParentOf x q :=
  parentOf_attached (f := f.plusDecay products params) hfree

/-- Whole trees become products: each is shown as it was, below its new parent. -/
theorem Shows.withDecay (hf : Linked f) (hts : ∀ v ∈ ts, f.Shows none v)
    (hp : ∀ v ∈ ts, p ∉ v.ids) (ht : t ∈ ts) (params : ParamList) :
    (f.withDecay p (ts.map Tree.id) params).Shows (some p) t := by
  refine (hts t ht).reroot ?_ (fun u hu x hx => ?_) fun d hd => ?_
  · have hne : t.id ≠ p := fun heq => hp t ht (heq ▸ t.id_mem_ids)
    rw [particle?_withDecay]
    simp only [if_pos (List.mem_map_of_mem ht), if_neg hne]
  · have hxt : x ∈ t.ids := Tree.ids_subset_of_mem_children hu hx
    have hne : x ≠ p := fun heq => hp t ht (heq ▸ hxt)
    have hproduct : x ∉ ts.map Tree.id := by
      intro hmem
      obtain ⟨v, hv, rfl⟩ := List.mem_map.mp hmem
      by_cases hvt : v.id = t.id
      · have hself := (hts t ht).nodup_ids hf
        rw [Tree.ids_eq, List.nodup_cons] at hself
        exact hself.1 (hvt ▸ List.mem_flatMap.mpr ⟨u, hu, hx⟩)
      · exact (hts v hv).disjoint_of_roots (hts t ht) hvt v.id_mem_ids hxt
    rw [particle?_withDecay]
    simp [hproduct, hne]
  · exact decay?_withDecay_of_spent ((hts t ht).spentDecay hd) _ _ _

theorem Linked.mem_productsOf_iff (hf : Linked f) (hp : f.particle? p = some P) :
    q ∈ f.productsOf P.decays ↔ f.ParentOf p q := by
  rw [mem_productsOf]
  constructor
  · rintro ⟨d, hd, D, hD, hq⟩
    obtain ⟨D', hD', hpar⟩ := hf.listed hp hd
    cases hD.symm.trans hD'
    exact hf.product hD hpar hq
  · intro hpq
    obtain ⟨d, D, hD, hpar, hq⟩ := hf.origin hpq
    obtain ⟨P', hP', hd⟩ := hf.owner hD hpar
    cases hp.symm.trans hP'
    exact ⟨d, hd, D, hD, hq⟩

/-! ### Mirrors -/

/-- `d'` is a decay of `p` in `g` with the parameters of `d` and the copies of its products. -/
def MirrorDecay (f g : Forest) (c : ParticleId → ParticleId) (p : ParticleId) (d d' : DecayId) :
    Prop :=
  ∃ D serial, f.decay? d = some D ∧ g.decay? d' = some ⟨D.products.map c, D.params, some p, serial⟩

/-- Where every particle of a tree is mirrored by its copy, so is the tree. -/
theorem Shows.mirror (ht : f.Shows parent t) (hu : g.Shows parent' u) (hid : u.id = c t.id)
    (hmirror : ∀ x ∈ t.ids, ∃ X X', f.particle? x = some X ∧ g.particle? (c x) = some X' ∧
      X'.type = X.type ∧ X'.params = X.params ∧
      List.Forall₂ (MirrorDecay f g c (c x)) X.decays X'.decays) :
    u.relabel id = t.relabel c := by
  induction t using Tree.induction generalizing parent parent' u with
  | node id type params branches ih =>
    obtain ⟨X, X', hX, hX', htype, hparams, hdecays⟩ := hmirror id (Tree.id_mem_ids _)
    obtain ⟨T, hT, -, hTdecays, hTeq⟩ := ht.top
    obtain ⟨U, hU, -, hUdecays, hUeq⟩ := hu.top
    cases hT.symm.trans hX
    rw [hid] at hU
    cases hU.symm.trans hX'
    rw [hTdecays, hUdecays, List.forall₂_map_left_iff, List.forall₂_map_right_iff] at hdecays
    cases hTeq
    rw [hUeq, hid, Tree.relabel_node, Tree.relabel_node, htype, hparams]
    refine congrArg (Tree.node _ _ _) (forall₂_iff_map_eq.mp ?_).symm
    refine forall₂_imp_of_mem hdecays fun b hb b' hb' ⟨D, n, hD, hD'⟩ => ?_
    obtain ⟨m, hm⟩ := ht.branch hb
    obtain ⟨m', hm'⟩ := hu.branch hb'
    cases hm.symm.trans hD
    have hD'' := hm'.symm.trans hD'
    simp only [Option.some.injEq, Decay.mk.injEq] at hD''
    obtain ⟨hids, hbparams, -⟩ := hD''
    rw [List.map_map] at hids
    refine congrArg₂ (Branch.mk ⟨0, 0⟩) hbparams.symm (forall₂_iff_map_eq.mp ?_)
    refine forall₂_imp_of_mem (forall₂_iff_map_eq.mpr hids.symm) fun v hv v' hv' hvv' => ?_
    have hvc : v ∈ (Tree.node id X.type X.params branches).children :=
      Tree.mem_children.mpr ⟨b, hb, hv⟩
    exact (ih b hb v hv (ht.child hvc) (hu.product hb' hv') hvv'.symm fun x hx =>
      hmirror x (Tree.ids_subset_of_mem_children hvc hx)).symm

/-! ### The decays of the copies -/

/-- `h` is `f` with a copy `c x` of each particle `x` of a tree. The copy of `x` has the copies of
those decays of `x` that are in `part x`, and nothing else is new. -/
structure Copying (f h : Forest) (c : ParticleId → ParticleId) (xs : List ParticleId)
    (part : ParticleId → List DecayId) : Prop where
  linked : Linked h
  database : h.database = f.database
  precedes : Precedes f h
  particle? : ∀ {x}, f.Spent x → h.particle? x = f.particle? x
  decay? : ∀ {d}, f.SpentDecay d → h.decay? d = f.decay? d
  fresh : ∀ {x}, x ∈ xs → ¬ f.Spent (c x)
  injective : ∀ {x y}, x ∈ xs → y ∈ xs → c x = c y → x = y
  mirror : ∀ {x}, x ∈ xs → ∃ X X', f.particle? x = some X ∧ h.particle? (c x) = some X' ∧
    X'.type = X.type ∧ X'.params = X.params ∧
    List.Forall₂ (MirrorDecay f h c (c x)) (part x) X'.decays
  owned : ∀ {x d}, x ∈ xs → d ∈ part x → ∃ D, f.decay? d = some D ∧ D.parent = some x
  parent : ∀ {q a}, q ∈ xs → h.ParentOf a (c q) → ∃ p ∈ xs, a = c p ∧
    ∃ d ∈ part p, ∃ D, f.decay? d = some D ∧ q ∈ D.products
  only : ∀ {a A}, h.particle? a = some A → ¬ f.Spent a → ∃ x ∈ xs, a = c x
  onlyDecay : ∀ {e E}, h.decay? e = some E → ¬ f.SpentDecay e → ∃ x ∈ xs, E.parent = some (c x)

namespace Copying

variable {xs : List ParticleId} {part : ParticleId → List DecayId}

/-- The first copies: each a leaf, and together all that is new. -/
theorem start {ts : List Tree} (hg : Grown f g ts)
    (hleaf : ∀ x ∈ xs, ∃ X, f.particle? x = some X ∧ .node (c x) X.type X.params [] ∈ ts)
    (honly : ∀ u ∈ ts, ∃ x ∈ xs, u.ids = [c x] ∧ u.decayIds = []) (hnodup : (xs.map c).Nodup) :
    Copying f g c xs fun _ => [] where
  linked := hg.linked
  database := hg.database
  precedes := hg.precedes
  particle? := hg.particle?
  decay? := hg.decay?
  fresh {x} hx := by
    obtain ⟨X, -, hmem⟩ := hleaf x hx
    exact hg.fresh hmem (Tree.id_mem_ids _)
  injective hx hy := List.inj_on_of_nodup_map hnodup hx hy
  mirror {x} hx := by
    obtain ⟨X, hX, hmem⟩ := hleaf x hx
    obtain ⟨X', hX', -, hdecays, heq⟩ := (hg.shows hmem).top
    obtain ⟨-, htype, hparams, -⟩ := Tree.node.inj heq
    refine ⟨X, X', hX, hX', htype.symm, hparams.symm, ?_⟩
    rw [hdecays]
    exact .nil
  owned _ hd := nomatch hd
  parent {q a} hq ha := by
    obtain ⟨X, -, hmem⟩ := hleaf q hq
    obtain ⟨X', hX', hnone, -⟩ := (hg.shows hmem).top
    exact ((parent_eq_none_iff hX').mp hnone a ha).elim
  only hA ha := by
    obtain ⟨u, hu, hmem⟩ := hg.only hA ha
    obtain ⟨x, hx, hids, -⟩ := honly u hu
    rw [hids] at hmem
    exact ⟨x, hx, List.mem_singleton.mp hmem⟩
  onlyDecay hE he := by
    obtain ⟨u, hu, hmem⟩ := hg.onlyDecay hE he
    obtain ⟨x, -, -, hnil⟩ := honly u hu
    rw [hnil] at hmem
    cases hmem

/-- The copy of a product has no parent before its decay is copied. -/
theorem free (hf : Linked f) (hc : Copying f h c xs part) (hd : f.decay? d = some D)
    (hp : D.parent = some p) (hnew : d ∉ part p) (hin : ∀ q ∈ D.products, q ∈ xs) :
    ∀ a ∈ D.products.map c, h.Free [] a := by
  intro a ha
  obtain ⟨q, hq, rfl⟩ := List.mem_map.mp ha
  obtain ⟨-, X', -, hX', -⟩ := hc.mirror (hin q hq)
  refine ⟨X', hX', .inl ((parent_eq_none_iff hX').mpr fun b hb => ?_)⟩
  obtain ⟨p', hp', -, d', hd', D', hD', hq'⟩ := hc.parent (hin q hq) hb
  obtain ⟨D'', hD'', hpar'⟩ := hc.owned hp' hd'
  cases hD'.symm.trans hD''
  cases hf.originOnce hd hD' hp hpar' hq hq'
  cases hD'.symm.trans hd
  cases hp.symm.trans hpar'
  exact hnew hd'

/-- What stands above a copy is a copy of something above its source. -/
theorem above (hf : Linked f) (hc : Copying f h c xs part) (hx : x ∈ xs) {a : ParticleId}
    (ha : h.Above a (c x)) : ∃ y ∈ xs, a = c y ∧ f.Above y x := by
  induction ha using Relation.ReflTransGen.head_induction_on with
  | refl => exact ⟨x, hx, rfl, .refl⟩
  | head hab _ ih =>
    obtain ⟨y, hy, rfl, habove⟩ := ih
    obtain ⟨p, hp, rfl, d, hd, D, hD, hyD⟩ := hc.parent hy hab
    obtain ⟨D', hD', hpar⟩ := hc.owned hp hd
    cases hD.symm.trans hD'
    exact ⟨p, hp, rfl, .head (hf.product hD hpar hyD) habove⟩

theorem nodup_products (hf : Linked f) (hc : Copying f h c xs part) (hd : f.decay? d = some D)
    (hp : D.parent = some p) (hin : ∀ q ∈ D.products, q ∈ xs) : (D.products.map c).Nodup :=
  (hf.productOnce hd hp).map_on fun x hx y hy => hc.injective (hin x hx) (hin y hy)

theorem not_above_products (hf : Linked f) (hc : Copying f h c xs part) (hd : f.decay? d = some D)
    (hp : D.parent = some p) (hpx : p ∈ xs) (hin : ∀ q ∈ D.products, q ∈ xs) :
    ∀ a ∈ D.products.map c, ¬ h.Above a (c p) := by
  intro a ha habove
  obtain ⟨q, hq, rfl⟩ := List.mem_map.mp ha
  obtain ⟨y, hy, heq, hyp⟩ := hc.above hf hpx habove
  cases hc.injective (hin q hq) hy heq
  exact hf.not_above_of_parentOf (hf.product hd hp hq) hyp

/-- What is mirrored before one more decay is copied is mirrored after it. -/
private theorem mirror_withDecay (hc : Copying f h c xs part) (hd : f.decay? d = some D)
    (hpx : p ∈ xs) (hx : x ∈ xs) :
    ∃ X X', f.particle? x = some X ∧
      (h.withDecay (c p) (D.products.map c) D.params).particle? (c x) = some X' ∧
      X'.type = X.type ∧ X'.params = X.params ∧
      List.Forall₂ (MirrorDecay f (h.withDecay (c p) (D.products.map c) D.params) c (c x))
        (if x = p then part x ++ [d] else part x) X'.decays := by
  obtain ⟨X, X', hX, hX', htype, hparams, hdecays⟩ := hc.mirror hx
  have hmono : ∀ e e', MirrorDecay f h c (c x) e e' →
      MirrorDecay f (h.withDecay (c p) (D.products.map c) D.params) c (c x) e e' :=
    fun _ _ ⟨E, n, hE, hE'⟩ => ⟨E, n, hE, decay?_withDecay_of_some hE' ..⟩
  have hX'' := particle?_withDecay h (c p) (D.products.map c) D.params (c x)
  rw [hX', Option.map_some] at hX''
  refine ⟨X, _, hX, hX'', htype, hparams, ?_⟩
  by_cases hxp : x = p
  · subst hxp
    simp only [if_true]
    exact List.rel_append (hdecays.imp hmono) (.cons ⟨D, _, hd, decay?_withDecay_self ..⟩ .nil)
  · have hne : c x ≠ c p := fun heq => hxp (hc.injective hx hpx heq)
    simp only [if_neg hxp, if_neg hne]
    exact hdecays.imp hmono

/-- The copy of one more decay. -/
theorem withDecay (hf : Linked f) (hc : Copying f h c xs part) (hd : f.decay? d = some D)
    (hp : D.parent = some p) (hpx : p ∈ xs) (hnew : d ∉ part p) (hin : ∀ q ∈ D.products, q ∈ xs) :
    Copying f (h.withDecay (c p) (D.products.map c) D.params) c xs
      fun x => if x = p then part x ++ [d] else part x := by
  have hfree := hc.free hf hd hp hnew hin
  have hcycle := hc.not_above_products hf hd hp hpx hin
  obtain ⟨-, P', -, hP', -⟩ := hc.mirror hpx
  constructor
  case linked => exact hc.linked.withDecay hP' (hc.nodup_products hf hd hp hin) hfree hcycle
  case database => rw [database_withDecay, hc.database]
  case precedes => exact hc.precedes.trans (.withDecay ..)
  case particle? =>
    intro x hx
    have hold : ∀ y ∈ xs, x ≠ c y := by
      rintro y hy rfl
      exact hc.fresh hy hx
    have hproduct : x ∉ D.products.map c := by
      intro hmem
      obtain ⟨q, hq, heq⟩ := List.mem_map.mp hmem
      exact hold q (hin q hq) heq.symm
    rw [particle?_withDecay, hc.particle? hx]
    simp [hproduct, hold p hpx]
  case decay? =>
    intro e he
    rw [decay?_withDecay_of_spent (hc.precedes.spentDecay he), hc.decay? he]
  case fresh => exact hc.fresh
  case injective => exact hc.injective
  case mirror => exact hc.mirror_withDecay hd hpx
  case owned =>
    intro x e hx he
    split at he
    · next hxp =>
      subst hxp
      rcases List.mem_append.mp he with he | he
      · exact hc.owned hx he
      · cases List.mem_singleton.mp he
        exact ⟨D, hd, hp⟩
    · exact hc.owned hx he
  case parent =>
    intro q a hq ha
    rcases (parentOf_withDecay hfree).mp ha with ⟨hmem, rfl⟩ | ⟨-, ha⟩
    · obtain ⟨r, hr, heq⟩ := List.mem_map.mp hmem
      cases hc.injective (hin r hr) hq heq
      exact ⟨p, hpx, rfl, d, by simp, D, hd, hr⟩
    · obtain ⟨r, hr, rfl, e, he, E, hE, hqE⟩ := hc.parent hq ha
      refine ⟨r, hr, rfl, e, ?_, E, hE, hqE⟩
      split
      · exact List.mem_append_left _ he
      · exact he
  case only =>
    intro a A hA ha
    rw [particle?_withDecay] at hA
    obtain ⟨A₀, hA₀, -⟩ := Option.map_eq_some_iff.mp hA
    exact hc.only hA₀ ha
  case onlyDecay =>
    intro e E hE he
    by_cases hne : e = h.nextDecay
    · subst hne
      cases (decay?_withDecay_self ..).symm.trans hE
      exact ⟨p, hpx, rfl⟩
    · rw [decay?_withDecay_of_ne _ _ _ _ hne] at hE
      exact hc.onlyDecay hE he

/-- Once all decays are copied, the copy of the tree is all that is new. -/
theorem grown (hf : Linked f) (ht : f.Shows parent t)
    (hc : Copying f h c t.ids part)
    (hpart : ∀ x ∈ t.ids, ∀ X, f.particle? x = some X → part x = X.decays) :
    ∃ u, u.id = c t.id ∧ u.shape = t.shape ∧ Grown f h [u] := by
  have hmirror : ∀ x ∈ t.ids, ∃ X X', f.particle? x = some X ∧ h.particle? (c x) = some X' ∧
      X'.type = X.type ∧ X'.params = X.params ∧
      List.Forall₂ (MirrorDecay f h c (c x)) X.decays X'.decays := by
    intro x hx
    obtain ⟨X, X', hX, hX', htype, hparams, hdecays⟩ := hc.mirror hx
    exact ⟨X, X', hX, hX', htype, hparams, hpart x hx X hX ▸ hdecays⟩
  obtain ⟨-, U, -, hU, -⟩ := hmirror t.id t.id_mem_ids
  obtain ⟨u, hu, hid⟩ := hc.linked.exists_tree hU
  have hroot : U.parent = none := by
    refine (parent_eq_none_iff hU).mpr fun a ha => ?_
    obtain ⟨p, hp, -, d, hd, D, hD, hq⟩ := hc.parent t.id_mem_ids ha
    obtain ⟨D', hD', hpar⟩ := hc.owned hp hd
    cases hD.symm.trans hD'
    exact hf.not_above_of_parentOf (hf.product hD hpar hq) (ht.above hp)
  rw [hroot] at hu
  have hrelabel := ht.mirror hu hid hmirror
  have hids := Tree.map_ids_eq_of_relabel hrelabel
  rw [List.map_id] at hids
  refine ⟨u, hid, Tree.shape_eq_of_relabel hrelabel, ?_⟩
  constructor
  case linked => exact hc.linked
  case database => exact hc.database
  case precedes => exact hc.precedes
  case particle? => exact hc.particle?
  case decay? => exact hc.decay?
  case shows =>
    intro v hv
    cases List.mem_singleton.mp hv
    exact hu
  case distinct => exact List.nodup_singleton _
  case fresh =>
    intro v x hv hx
    cases List.mem_singleton.mp hv
    rw [hids] at hx
    obtain ⟨y, hy, rfl⟩ := List.mem_map.mp hx
    exact hc.fresh hy
  case only =>
    intro a A hA ha
    obtain ⟨x, hx, rfl⟩ := hc.only hA ha
    exact ⟨u, List.mem_singleton_self u, hids ▸ List.mem_map_of_mem hx⟩
  case onlyDecay =>
    intro e E hE he
    obtain ⟨x, hx, hpar⟩ := hc.onlyDecay hE he
    refine ⟨u, List.mem_singleton_self u, (hu.mem_decayIds_iff hc.linked).mpr ?_⟩
    exact ⟨E, c x, hE, hpar, hids ▸ List.mem_map_of_mem hx⟩

end Copying

end Forest

/-! ### The run -/

namespace Edit

open Forest

variable {f h : Forest} {x : ParticleId} {X : Particle} {c : ParticleId → ParticleId}
  {xs : List ParticleId} {part : ParticleId → List DecayId} {parent : Option ParticleId} {t : Tree}
  {table : List (ParticleId × ParticleId)}

theorem on_copy (hx : f.particle? x = some X) :
    (copy x).on f =
      (.ok f.nextParticle, f.plusParticle X.type X.params) := by
  unfold copy
  rw [on_bind_of_ok (on_ask_particle hx), on_addParticle]

theorem on_copy_dead (hx : f.particle? x = none) : (copy x).on f = (.error (.deadParticle x), f) :=
  on_bind_of_error (on_ask_particle_dead hx)

theorem mem_of_copyOf {a : ParticleId} (h : copyOf table x = .ok a) : (x, a) ∈ table := by
  unfold copyOf at h
  split at h
  · next hlookup =>
    cases h
    obtain ⟨before, rest, rfl, -⟩ := List.lookup_eq_some_iff.mp hlookup
    exact List.mem_append_right _ List.mem_cons_self
  · cases h

theorem mapM_copyOf (htable : ∀ x ∈ xs, copyOf table x = .ok (c x)) {qs : List ParticleId}
    (hqs : ∀ q ∈ qs, q ∈ xs) : qs.mapM (copyOf table) = .ok (qs.map c) := by
  induction qs with
  | nil => rfl
  | cons q qs ih =>
    rw [List.mapM_cons, htable q (hqs q List.mem_cons_self),
      ih fun r hr => hqs r (List.mem_cons_of_mem q hr)]
    rfl

/-- One decay of a particle is copied for the copy of that particle. -/
private theorem on_copyDecay (hf : Linked f) (hc : Copying f h c xs part) (hx : x ∈ xs)
    (htable : ∀ x ∈ xs, copyOf table x = .ok (c x)) {d : DecayId} {D : Decay}
    (hD : f.decay? d = some D) (hpar : D.parent = some x) (hnew : d ∉ part x)
    (hin : ∀ q ∈ D.products, q ∈ xs) :
    (do
      let d ← ask (·.decay d)
      let products ← liftM (d.products.mapM (copyOf table))
      attach (c x) (← addFreeDecay products d.params) : Edit Unit).on h =
        (.ok (), h.withDecay (c x) (D.products.map c) D.params) := by
  obtain ⟨-, X', -, hX', -⟩ := hc.mirror hx
  have hcheck : h.checkProducts [] (D.products.map c) = .ok () :=
    (checkProducts_eq_ok [] _).mpr
      ⟨hc.nodup_products hf hD hpar hin, hc.free hf hD hpar hnew hin⟩
  have hadd := on_addFreeDecay (D.products.map c) D.params h
  rw [hcheck] at hadd
  rw [on_bind_of_ok (on_ask_decay ((hc.decay? (spent_of_decay? hD)).trans hD)),
    on_bind_of_ok (a := D.products.map c) (g := h) (by rw [on_lift, mapM_copyOf htable hin]),
    on_bind_of_ok hadd, on_attach_new hX' hcheck]

/-- A particle's copy gets the copies of its decays, one after another. -/
theorem on_copyDecays (hf : Linked f) (hc : Copying f h c xs part) (hx : x ∈ xs)
    (hX : f.particle? x = some X) (htable : ∀ x ∈ xs, copyOf table x = .ok (c x))
    (hin : ∀ q, f.ParentOf x q → q ∈ xs) (hpart : part x = []) :
    ∃ h' part', (copyDecays table x).on h = (.ok (), h') ∧ Copying f h' c xs part' ∧
      part' x = X.decays ∧ ∀ y, y ≠ x → part' y = part y := by
  unfold copyDecays
  rw [on_bind_of_ok (a := c x) (g := h) (by rw [on_lift, htable x hx]),
    on_bind_of_ok (on_ask_particle ((hc.particle? (spent_of_particle? hX)).trans hX))]
  have hloop : ∀ (done ds : List DecayId) (h : Forest) (part : ParticleId → List DecayId),
      X.decays = done ++ ds → part x = done → Copying f h c xs part →
      ∃ h' part', (ds.forM fun decay => do
        let d ← ask (·.decay decay)
        let products ← liftM (d.products.mapM (copyOf table))
        attach (c x) (← addFreeDecay products d.params) : Edit Unit).on h = (.ok (), h') ∧
        Copying f h' c xs part' ∧ part' x = X.decays ∧ ∀ y, y ≠ x → part' y = part y := by
    intro done ds
    induction ds generalizing done with
    | nil =>
      intro h part hX hdone hc
      exact ⟨h, part, rfl, hc, by rw [hdone, hX, List.append_nil], fun _ _ => rfl⟩
    | cons d ds ih =>
      intro h part hds hdone hc
      obtain ⟨D, hD, hpar⟩ := hf.listed hX (hds ▸ List.mem_append_right done List.mem_cons_self)
      have hnew : d ∉ part x := by
        rw [hdone]
        intro hmem
        exact (List.nodup_append.mp (hds ▸ hf.listedOnce hX)).2.2 d hmem d List.mem_cons_self rfl
      have hproducts : ∀ q ∈ D.products, q ∈ xs := fun q hq => hin q (hf.product hD hpar hq)
      obtain ⟨h', part', hrun, hc', hx', hother⟩ := ih (done ++ [d]) _ _
        (by rw [hds, List.append_assoc, List.singleton_append]) (by rw [if_pos rfl, hdone])
        (hc.withDecay hf hD hpar hx hnew hproducts)
      have hstep := on_copyDecay hf hc hx htable hD hpar hnew hproducts
      refine ⟨h', part', (on_bind_of_ok hstep).trans hrun, hc', hx', fun y hy => ?_⟩
      rw [hother y hy, if_neg hy]
  exact hloop [] X.decays h part rfl hpart hc

/-- All copies get their decays. -/
theorem on_forM_copyDecays (hf : Linked f) (htable : ∀ x ∈ xs, copyOf table x = .ok (c x))
    (hlive : ∀ x ∈ xs, ∃ X, f.particle? x = some X)
    (hin : ∀ x ∈ xs, ∀ q, f.ParentOf x q → q ∈ xs) (hc : Copying f h c xs part)
    {l : List ParticleId} (hl : l ⊆ xs) (hnodup : l.Nodup) (hpart : ∀ x ∈ l, part x = []) :
    ∃ h' part', (l.forM (copyDecays table)).on h = (.ok (), h') ∧ Copying f h' c xs part' ∧
      (∀ x ∈ l, ∀ X, f.particle? x = some X → part' x = X.decays) ∧
      ∀ y, y ∉ l → part' y = part y := by
  induction l generalizing h part with
  | nil => exact ⟨h, part, rfl, hc, nofun, fun _ _ => rfl⟩
  | cons x l ih =>
    obtain ⟨hxl, hnodup⟩ := List.nodup_cons.mp hnodup
    have hx : x ∈ xs := hl List.mem_cons_self
    obtain ⟨X, hX⟩ := hlive x hx
    obtain ⟨h₁, part₁, hrun₁, hc₁, hx₁, hother₁⟩ :=
      on_copyDecays hf hc hx hX htable (hin x hx) (hpart x List.mem_cons_self)
    obtain ⟨h₂, part₂, hrun₂, hc₂, hall₂, hother₂⟩ := ih hc₁
      (fun y hy => hl (List.mem_cons_of_mem x hy)) hnodup fun y hy => by
        rw [hother₁ y (fun hyx => hxl (hyx ▸ hy)), hpart y (List.mem_cons_of_mem x hy)]
    refine ⟨h₂, part₂, (on_bind_of_ok hrun₁).trans hrun₂, hc₂, fun y hy Y hY => ?_, fun y hy => ?_⟩
    · rcases List.mem_cons.mp hy with rfl | hy
      · rw [hother₂ y hxl, hx₁]
        cases hX.symm.trans hY
        rfl
      · exact hall₂ y hy Y hY
    · obtain ⟨hyx, hyl⟩ := not_or.mp (List.mem_cons.not.mp hy)
      rw [hother₂ y hyl, hother₁ y hyx]

/-- The particles of a tree get copies without decays. -/
private theorem on_mapM_copy (hf : Linked f) {l : List ParticleId}
    (hl : ∀ x ∈ l, ∃ X, f.particle? x = some X) :
    ∃ (rs : List (ParticleId × Tree)) (g : Forest),
      (l.mapM copy).on f = (.ok (rs.map Prod.fst), g) ∧ Grown f g (rs.map Prod.snd) ∧
        List.Forall₂ (fun x r => ∃ X, f.particle? x = some X ∧
          r.2 = .node r.1 X.type X.params []) l rs := by
  refine on_mapM_grown_one copy (S := fun x y => x = y ∧ ∃ X, f.particle? x = some X) hf
    (List.forall₂_same.mpr fun x hx => ⟨rfl, hl x hx⟩) ?_
  rintro x _ ⟨rfl, X, hX⟩ g ts hg
  exact ⟨_, _, _, on_copy (hg.live hX), .particle hg.linked X.type X.params, X, hX, rfl⟩

theorem on_copyTree_dead (hx : f.particle? x = none) :
    (copyTree x).on f = (.error (.deadParticle x), f) :=
  on_bind_of_error (on_ask_particle_dead hx)

/-- A tree is copied whole, beside everything that was there. -/
theorem on_copyTree (hf : Linked f) (ht : f.Shows parent t) :
    ∃ g u, (copyTree t.id).on f = (.ok u.id, g) ∧ Grown f g [u] ∧ u.shape = t.shape := by
  obtain ⟨T, hT, -⟩ := ht.top
  have hlive : ∀ x ∈ t.ids, ∃ X, f.particle? x = some X := fun x hx => ht.live hx
  obtain ⟨rs, g, hrun, hg, hrs⟩ := on_mapM_copy hf hlive
  let table := t.ids.zip (rs.map Prod.fst)
  let c : ParticleId → ParticleId := fun x => (table.lookup x).getD x
  have hlen : t.ids.length = (rs.map Prod.fst).length := by rw [List.length_map, hrs.length_eq]
  have hlookup : ∀ x ∈ t.ids, table.lookup x = some (c x) := by
    intro x hx
    obtain ⟨a, ha⟩ := lookup_zip_isSome hlen hx
    simp only [c, table, ha, Option.getD_some]
  have htable : ∀ x ∈ t.ids, copyOf table x = .ok (c x) := by
    intro x hx
    rw [copyOf, hlookup x hx]
  have hmap : t.ids.map c = rs.map Prod.fst := map_lookup_zip c (ht.nodup_ids hf) hlen hlookup
  have hleaf : ∀ x ∈ t.ids, ∃ X, f.particle? x = some X ∧
      .node (c x) X.type X.params [] ∈ rs.map Prod.snd := by
    intro x hx
    obtain ⟨r, hr, ⟨X, hX, hnode⟩, hcx⟩ := exists_of_forall₂ hrs hmap hx
    exact ⟨X, hX, List.mem_map.mpr ⟨r, hr, by rw [hnode, hcx]⟩⟩
  have hback : ∀ r ∈ rs, ∃ x ∈ t.ids, r.1 = c x ∧
      ∃ X : Particle, r.2 = .node r.1 X.type X.params [] := by
    intro r hr
    obtain ⟨x, hx, ⟨X, -, hnode⟩, hrx⟩ :=
      exists_of_forall₂ (List.Forall₂.flip (R := flip _) hrs) hmap.symm hr
    exact ⟨x, hx, hrx, X, hnode⟩
  have honly : ∀ u ∈ rs.map Prod.snd, ∃ x ∈ t.ids, u.ids = [c x] ∧ u.decayIds = [] := by
    intro u hu
    obtain ⟨r, hr, rfl⟩ := List.mem_map.mp hu
    obtain ⟨x, hx, hrx, X, hnode⟩ := hback r hr
    rw [hnode, hrx]
    exact ⟨x, hx, Tree.ids_eq _, Tree.decayIds_eq _⟩
  have hnodup : (t.ids.map c).Nodup := by
    have hroots : (rs.map Prod.snd).map Tree.id = rs.map Prod.fst := by
      rw [List.map_map]
      refine List.map_congr_left fun r hr => ?_
      obtain ⟨-, -, -, X, hnode⟩ := hback r hr
      rw [Function.comp_apply, hnode]
      rfl
    rw [hmap, ← hroots]
    exact hg.distinct
  obtain ⟨h, part, hruns, hc, hpart, -⟩ := on_forM_copyDecays hf htable hlive
    (fun x hx q hq => ht.mem_ids_of_parentOf hf hx hq) (.start hg hleaf honly hnodup)
    (fun _ hx => hx) (ht.nodup_ids hf) fun _ _ => rfl
  obtain ⟨u, hid, hshape, hgrown⟩ := hc.grown hf ht hpart
  refine ⟨h, u, ?_, hgrown, hshape⟩
  unfold copyTree
  rw [on_bind_of_ok (on_ask_particle hT), on_bind_of_ok (on_get f), ht.preorder_eq hf,
    on_bind_of_ok hrun, on_bind_of_ok hruns, on_lift, htable t.id t.id_mem_ids, hid]

/-- Trees are copied in sequence, each whole. -/
theorem on_mapM_copyTree {γ : Type} (root : γ → ParticleId) {l : List γ} {ts : List Tree}
    (hf : Linked f) (hl : List.Forall₂ (fun c t => root c = t.id ∧ ∃ parent, f.Shows parent t) l ts) :
    ∃ us g, (l.mapM fun c => copyTree (root c)).on f = (.ok (us.map Tree.id), g) ∧
      Grown f g us ∧ us.map Tree.shape = ts.map Tree.shape := by
  obtain ⟨rs, g, hrun, hg, hrs⟩ := on_mapM_grown_one (fun c => copyTree (root c))
    (R := fun t r => r.1 = r.2.id ∧ r.2.shape = t.shape) hf hl <| by
      rintro c t ⟨hroot, parent, ht⟩ g ts hg
      obtain ⟨h, u, hrun, hu, hshape⟩ := on_copyTree hg.linked (hg.stay ht)
      exact ⟨u.id, h, u, hroot ▸ hrun, hu, rfl, hshape⟩
  have hids : (rs.map Prod.snd).map Tree.id = rs.map Prod.fst := by
    rw [List.map_map]
    refine List.map_congr_left fun r hr => ?_
    obtain ⟨t, -, hid, -⟩ := exists_left_of_forall₂ hrs hr
    exact hid.symm
  refine ⟨rs.map Prod.snd, g, hids ▸ hrun, hg, ?_⟩
  rw [List.map_map]
  exact (forall₂_iff_map_eq.mp (hrs.imp fun t r hr => hr.2.symm)).symm

end Edit

end DecayForest
