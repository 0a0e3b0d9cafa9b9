import DecayForest.Proofs.Forest.Linkage
import DecayForest.Proofs.Forest.Tree
import Mathlib.Tactic.Choose
/-!
# Subtrees of a forest

`Forest.Shows f parent t` says that the tree `t` stands in a forest as it is, with `parent` above it.
In a linked forest every particle has such a tree (`Linked.exists_tree`), it consists of what parent
links lead down to (`Shows.mem_ids_iff`), lists no particle twice (`Shows.nodup_ids`), and the walks
of `Forest.Walk` and the reading of `Forest.Tree` find it.
-/

namespace DecayForest.Forest

/-- `t` is a particle of a forest with all that is below it, and `parent` is its parent. -/
inductive Shows (f : Forest) : Option ParticleId → Tree → Prop
  | node {parent : Option ParticleId} {id : ParticleId} {type : String} {params : ParamList}
      {branches : List Branch} {n : Nat} :
    f.particle? id = some ⟨type, params, parent, branches.map Branch.id, n⟩ →
    (∀ b ∈ branches, ∃ serial,
      f.decay? b.id = some ⟨b.products.map Tree.id, b.params, some id, serial⟩) →
    (∀ b ∈ branches, ∀ t ∈ b.products, Shows f (some id) t) →
    Shows f parent (.node id type params branches)

variable {f g : Forest} {p q x y : ParticleId} {P Q : Particle} {d : DecayId} {D : Decay}
  {parent : Option ParticleId} {t u : Tree} {b : Branch}

namespace Shows

theorem top (h : f.Shows parent t) : ∃ P, f.particle? t.id = some P ∧ P.parent = parent ∧
    P.decays = t.branches.map Branch.id ∧ t = .node t.id P.type P.params t.branches := by
  cases h with
  | node hp _ _ => exact ⟨_, hp, rfl, rfl, rfl⟩

theorem particle?_node {id : ParticleId} {type : String} {params : ParamList} {branches : List Branch}
    (h : f.Shows parent (.node id type params branches)) :
    ∃ serial, f.particle? id = some ⟨type, params, parent, branches.map Branch.id, serial⟩ := by
  cases h with
  | node hp _ _ => exact ⟨_, hp⟩

theorem branch (h : f.Shows parent t) (hb : b ∈ t.branches) : ∃ serial,
    f.decay? b.id = some ⟨b.products.map Tree.id, b.params, some t.id, serial⟩ := by
  cases h with
  | node _ hd _ => exact hd b hb

theorem child (h : f.Shows parent t) (hu : u ∈ t.children) : f.Shows (some t.id) u := by
  cases h with
  | node _ _ hs =>
    obtain ⟨b, hb, hu⟩ := Tree.mem_children.mp hu
    exact hs b hb u hu

theorem product (h : f.Shows parent t) (hb : b ∈ t.branches) (hu : u ∈ b.products) :
    f.Shows (some t.id) u :=
  h.child (Tree.mem_children.mpr ⟨b, hb, hu⟩)

theorem parentOf_child (h : f.Shows parent t) (hu : u ∈ t.children) : f.ParentOf t.id u.id := by
  obtain ⟨U, hU, hpar, -⟩ := (h.child hu).top
  exact .of_particle? hU hpar

theorem productsOf_branches (h : f.Shows parent t) :
    f.productsOf (t.branches.map Branch.id) = t.children.map Tree.id := by
  rw [productsOf, List.flatMap_map, Tree.children, List.map_flatMap]
  refine congrArg List.flatten (List.map_congr_left fun b hb => ?_)
  obtain ⟨n, hn⟩ := h.branch hb
  rw [hn]
  rfl

theorem mem_ids_cases (hx : x ∈ t.ids) : x = t.id ∨ ∃ u ∈ t.children, x ∈ u.ids := by
  rw [Tree.ids_eq] at hx
  rcases List.mem_cons.mp hx with hx | hx
  · exact .inl hx
  · exact .inr (List.mem_flatMap.mp hx)

theorem mem_decayIds_cases (hd : d ∈ t.decayIds) :
    (∃ b ∈ t.branches, d = b.id) ∨ ∃ u ∈ t.children, d ∈ u.decayIds := by
  rw [Tree.decayIds_eq] at hd
  rcases List.mem_append.mp hd with hd | hd
  · obtain ⟨b, hb, rfl⟩ := List.mem_map.mp hd
    exact .inl ⟨b, hb, rfl⟩
  · exact .inr (List.mem_flatMap.mp hd)

/-- What a tree shows does not hang on the rest of the forest. -/
theorem of_agree (h : f.Shows parent t) (hp : ∀ x ∈ t.ids, g.particle? x = f.particle? x)
    (hd : ∀ d ∈ t.decayIds, g.decay? d = f.decay? d) : g.Shows parent t := by
  induction h with
  | @node parent id type params branches serial hid hbranch _ ih =>
    refine .node (n := serial) ?_ (fun b hb => ?_) fun b hb u hu => ?_
    · rw [hp id (Tree.id_mem_ids (.node id type params branches)), hid]
    · rw [hd b.id (Tree.branch_mem_decayIds hb)]
      exact hbranch b hb
    · have hchild : u ∈ (Tree.node id type params branches).children :=
        Tree.mem_children.mpr ⟨b, hb, hu⟩
      exact ih b hb u hu (fun x hx => hp x (Tree.ids_subset_of_mem_children hchild hx))
        fun d hd' => hd d (Tree.decayIds_subset_of_mem_children hchild hd')

/-- The same tree with another parent above it. -/
theorem reroot (h : f.Shows parent t) {parent' : Option ParticleId}
    (htop : g.particle? t.id = (f.particle? t.id).map fun P => { P with parent := parent' })
    (hp : ∀ u ∈ t.children, ∀ x ∈ u.ids, g.particle? x = f.particle? x)
    (hd : ∀ d ∈ t.decayIds, g.decay? d = f.decay? d) : g.Shows parent' t := by
  rcases t with ⟨id, type, params, branches⟩
  cases h with
  | @node _ _ _ _ _ serial hid hbranch hs =>
    refine .node (n := serial) ?_ (fun b hb => ?_) fun b hb u hu => ?_
    · rw [Tree.id_node] at htop
      rw [htop, hid]
      rfl
    · rw [hd b.id (Tree.branch_mem_decayIds hb)]
      exact hbranch b hb
    · have hchild : u ∈ (Tree.node id type params branches).children :=
        Tree.mem_children.mpr ⟨b, hb, hu⟩
      exact (hs b hb u hu).of_agree (hp u hchild)
        fun d hd' => hd d (Tree.decayIds_subset_of_mem_children hchild hd')

theorem live (h : f.Shows parent t) (hx : x ∈ t.ids) : ∃ X, f.particle? x = some X := by
  induction t using Tree.induction generalizing parent with
  | node id type params branches ih =>
    rcases mem_ids_cases hx with rfl | ⟨u, hu, hx⟩
    · obtain ⟨P, hP, -⟩ := h.top
      exact ⟨P, hP⟩
    · obtain ⟨b, hb, hub⟩ := Tree.mem_children.mp hu
      exact ih b hb u hub (h.child hu) hx

theorem all_iff (h : f.Shows parent t) {particle : String → ParamList → Prop}
    {decay : ParamList → Prop} : t.All particle decay ↔
      ∀ x ∈ t.ids, ∀ X, f.particle? x = some X → particle X.type X.params ∧
        ∀ d ∈ X.decays, ∀ D, f.decay? d = some D → decay D.params := by
  induction t using Tree.induction generalizing parent with
  | node id type params branches ih =>
    obtain ⟨n, hid⟩ := h.particle?_node
    rw [Tree.all_node]
    constructor
    · rintro ⟨htop, hbelow⟩ x hx
      rcases mem_ids_cases hx with rfl | ⟨u, hu, hx⟩
      · intro X hX
        cases hid.symm.trans hX
        refine ⟨htop, fun d hd D hD => ?_⟩
        obtain ⟨b, hb, rfl⟩ := List.mem_map.mp hd
        obtain ⟨m, hm⟩ := h.branch hb
        cases hm.symm.trans hD
        exact (hbelow b hb).1
      · obtain ⟨b, hb, hub⟩ := Tree.mem_children.mp hu
        exact (ih b hb u hub (h.child hu)).mp ((hbelow b hb).2 u hub) x hx
    · intro hall
      obtain ⟨htop, hdecays⟩ := hall id (Tree.id_mem_ids _) _ hid
      refine ⟨htop, fun b hb => ⟨?_, fun u hu => ?_⟩⟩
      · obtain ⟨m, hm⟩ := h.branch hb
        exact hdecays b.id (List.mem_map_of_mem hb) _ hm
      · exact (ih b hb u hu (h.product hb hu)).mpr fun x hx =>
          hall x (Tree.ids_subset_of_product hb hu hx)

/-- The decays of a tree belong to its particles. -/
theorem decay_of_mem (h : f.Shows parent t) (hd : d ∈ t.decayIds) :
    ∃ D p, f.decay? d = some D ∧ D.parent = some p ∧ p ∈ t.ids := by
  induction t using Tree.induction generalizing parent with
  | node id type params branches ih =>
    rcases mem_decayIds_cases hd with ⟨b, hb, rfl⟩ | ⟨u, hu, hd⟩
    · obtain ⟨n, hn⟩ := h.branch hb
      exact ⟨_, id, hn, rfl, Tree.id_mem_ids _⟩
    · obtain ⟨b, hb, hub⟩ := Tree.mem_children.mp hu
      obtain ⟨D, p, hD, hp, hmem⟩ := ih b hb u hub (h.child hu) hd
      exact ⟨D, p, hD, hp, Tree.ids_subset_of_mem_children hu hmem⟩

theorem above (h : f.Shows parent t) (hx : x ∈ t.ids) : f.Above t.id x := by
  induction t using Tree.induction generalizing parent with
  | node id type params branches ih =>
    rcases mem_ids_cases hx with rfl | ⟨u, hu, hx⟩
    · exact .refl
    · obtain ⟨b, hb, hub⟩ := Tree.mem_children.mp hu
      exact .head (h.parentOf_child hu) (ih b hb u hub (h.child hu) hx)

/-- Every product of the particle on top has a tree below it. -/
theorem exists_child (hf : Linked f) (h : f.Shows parent t) (hx : f.ParentOf t.id x) :
    ∃ u ∈ t.children, u.id = x := by
  obtain ⟨P, hP, -, hdecays, -⟩ := h.top
  obtain ⟨d, D, hD, hpar, hx⟩ := hf.origin hx
  obtain ⟨P', hP', hd⟩ := hf.owner hD hpar
  cases hP.symm.trans hP'
  have hmem : x ∈ f.productsOf P.decays := mem_productsOf.mpr ⟨d, hd, D, hD, hx⟩
  rw [hdecays, h.productsOf_branches] at hmem
  exact List.mem_map.mp hmem

/-- A tree holds the products of its particles. -/
theorem mem_ids_of_parentOf (hf : Linked f) (h : f.Shows parent t) (hy : y ∈ t.ids)
    (hyx : f.ParentOf y x) : x ∈ t.ids := by
  induction t using Tree.induction generalizing parent with
  | node id type params branches ih =>
    rcases mem_ids_cases hy with rfl | ⟨u, hu, hy⟩
    · obtain ⟨u, hu, rfl⟩ := h.exists_child hf hyx
      exact Tree.ids_subset_of_mem_children hu u.id_mem_ids
    · obtain ⟨b, hb, hub⟩ := Tree.mem_children.mp hu
      exact Tree.ids_subset_of_mem_children hu (ih b hb u hub (h.child hu) hy)

/-- A tree is what parent links lead down to from its top. -/
theorem mem_ids_iff (hf : Linked f) (h : f.Shows parent t) : x ∈ t.ids ↔ f.Above t.id x := by
  refine ⟨h.above, fun hx => ?_⟩
  induction hx with
  | refl => exact t.id_mem_ids
  | tail _ hyx ih => exact h.mem_ids_of_parentOf hf ih hyx

theorem mem_decayIds_iff (hf : Linked f) (h : f.Shows parent t) :
    d ∈ t.decayIds ↔ ∃ D p, f.decay? d = some D ∧ D.parent = some p ∧ p ∈ t.ids := by
  refine ⟨h.decay_of_mem, ?_⟩
  rintro ⟨D, p, hD, hpar, hp⟩
  induction t using Tree.induction generalizing parent with
  | node id type params branches ih =>
    rcases mem_ids_cases hp with rfl | ⟨u, hu, hp⟩
    · obtain ⟨P, hP, -, hdecays, -⟩ := h.top
      obtain ⟨P', hP', hd⟩ := hf.owner hD hpar
      cases hP.symm.trans hP'
      rw [Tree.decayIds_eq, ← hdecays]
      exact List.mem_append_left _ hd
    · obtain ⟨b, hb, hub⟩ := Tree.mem_children.mp hu
      exact Tree.decayIds_subset_of_mem_children hu (ih b hb u hub (h.child hu) hp)

/-- Trees without a common particle have no common decay, as that would belong to one. -/
theorem disjoint_decayIds {parent' : Option ParticleId} (h : f.Shows parent t)
    (h' : f.Shows parent' u) (hids : List.Disjoint t.ids u.ids) :
    List.Disjoint t.decayIds u.decayIds := by
  intro d hd hd'
  obtain ⟨D, p, hD, hp, hpt⟩ := h.decay_of_mem hd
  obtain ⟨D', p', hD', hp', hpu⟩ := h'.decay_of_mem hd'
  cases hD.symm.trans hD'
  cases hp.symm.trans hp'
  exact hids hpt hpu

/-- Two trees without a common particle, as neither stands above the other. -/
theorem disjoint {parent' : Option ParticleId} (h : f.Shows parent t) (h' : f.Shows parent' u)
    (htu : ¬ f.Above t.id u.id) (hut : ¬ f.Above u.id t.id) : List.Disjoint t.ids u.ids := by
  intro x hx hx'
  rcases (h.above hx).total (h'.above hx') with habove | habove
  · exact htu habove
  · exact hut habove

end Shows

namespace Linked

/-- No particle is listed twice among the products of all decays of a particle. -/
theorem nodup_productsOf (hf : Linked f) (hp : f.particle? p = some P) :
    (f.productsOf P.decays).Nodup := by
  have hdecay : ∀ {d}, d ∈ P.decays → ∃ D, f.decay? d = some D ∧ D.parent = some p :=
    fun hd => hf.listed hp hd
  refine List.nodup_flatMap.mpr ⟨fun d hd => ?_, ?_⟩
  · obtain ⟨D, hD, hpar⟩ := hdecay hd
    rw [hD]
    exact hf.productOnce hD hpar
  · refine (hf.listedOnce hp).imp_of_mem fun {d d'} hd hd' hne q hq hq' => ?_
    obtain ⟨D, hD, hpar⟩ := hdecay hd
    obtain ⟨D', hD', hpar'⟩ := hdecay hd'
    simp only [hD, Option.map_some, Option.getD_some] at hq
    simp only [hD', Option.map_some, Option.getD_some] at hq'
    exact hne (hf.originOnce hD hD' hpar hpar' hq hq')

end Linked

namespace Shows

theorem nodup_children (hf : Linked f) (h : f.Shows parent t) : (t.children.map Tree.id).Nodup := by
  obtain ⟨P, hP, -, hdecays, -⟩ := h.top
  rw [← h.productsOf_branches, ← hdecays]
  exact hf.nodup_productsOf hP

/-- The trees of two products of one particle have nothing in common. -/
theorem disjoint_children (hf : Linked f) (h : f.Shows parent t) {v : Tree} (hu : u ∈ t.children)
    (hv : v ∈ t.children) (hne : u.id ≠ v.id) : List.Disjoint u.ids v.ids := by
  have hdown : ∀ {a b : Tree}, a ∈ t.children → b ∈ t.children → a.id ≠ b.id →
      ¬ f.Above a.id b.id := by
    intro a b ha hb hab habove
    exact hf.not_above_of_parentOf (h.parentOf_child ha)
      (habove.of_parentOf hab (h.parentOf_child hb))
  exact (h.child hu).disjoint (h.child hv) (hdown hu hv hne) (hdown hv hu hne.symm)

/-- A tree lists no particle twice. -/
theorem nodup_ids (hf : Linked f) (h : f.Shows parent t) : t.ids.Nodup := by
  induction t using Tree.induction generalizing parent with
  | node id type params branches ih =>
    rw [Tree.ids_eq, List.nodup_cons, List.nodup_flatMap]
    refine ⟨fun hmem => ?_, fun u hu => ?_, ?_⟩
    · obtain ⟨u, hu, hmem⟩ := List.mem_flatMap.mp hmem
      exact hf.not_above_of_parentOf (h.parentOf_child hu) ((h.child hu).above hmem)
    · obtain ⟨b, hb, hub⟩ := Tree.mem_children.mp hu
      exact ih b hb u hub (h.child hu)
    · have hnodup := List.pairwise_map.mp (h.nodup_children hf)
      exact hnodup.imp_of_mem fun hu hv hne => h.disjoint_children hf hu hv hne

/-- A tree lists no decay twice. -/
theorem nodup_decayIds (hf : Linked f) (h : f.Shows parent t) : t.decayIds.Nodup := by
  induction t using Tree.induction generalizing parent with
  | node id type params branches ih =>
    obtain ⟨P, hP, -, hdecays, -⟩ := h.top
    rw [Tree.decayIds_eq, List.nodup_append, List.nodup_flatMap]
    refine ⟨hdecays ▸ hf.listedOnce hP, ⟨fun u hu => ?_, ?_⟩, ?_⟩
    · obtain ⟨b, hb, hub⟩ := Tree.mem_children.mp hu
      exact ih b hb u hub (h.child hu)
    · have hnodup := List.pairwise_map.mp (h.nodup_children hf)
      exact hnodup.imp_of_mem fun hu hv hne =>
        (h.child hu).disjoint_decayIds (h.child hv) (h.disjoint_children hf hu hv hne)
    · -- a decay of the top that is below it, too, would belong to a particle below
      rintro d hd _ hd' rfl
      obtain ⟨b, hb, rfl⟩ := List.mem_map.mp hd
      obtain ⟨u, hu, hmem⟩ := List.mem_flatMap.mp hd'
      obtain ⟨D, p, hD, hpar, hp⟩ := (h.child hu).decay_of_mem hmem
      obtain ⟨n, hn⟩ := h.branch hb
      cases hn.symm.trans hD
      cases hpar
      exact hf.not_above_of_parentOf (h.parentOf_child hu) ((h.child hu).above hp)

theorem length_ids_le (hf : Linked f) (h : f.Shows parent t) : t.ids.length ≤ f.room :=
  length_le_room (h.nodup_ids hf) fun _ hx => h.live hx

end Shows

/-! ### Every particle has a tree -/

/-- Every live particle of a linked forest is on top of a tree. The recursion goes down: a product
has a longer lineage than its parent, and no lineage is longer than the number of slots. -/
theorem Linked.exists_tree (hf : Linked f) (hp : f.particle? p = some P) :
    ∃ t, f.Shows P.parent t ∧ t.id = p := by
  obtain ⟨l, hl⟩ := hf.exists_lineage p
  have hlen := hf.lineage_length_le hl hp
  obtain ⟨n, hn⟩ : ∃ n, f.room - l.length = n := ⟨_, rfl⟩
  induction n using Nat.strongRecOn generalizing p P l with
  | ind n ih =>
    have hsub : ∀ q, ∃ t, f.ParentOf p q → f.Shows (some p) t ∧ t.id = q := by
      intro q
      by_cases hpq : f.ParentOf p q
      · obtain ⟨Q, hQ, hpar⟩ := parentOf_iff.mp hpq
        have hlq : f.Lineage q (q :: l) := .child hpq hl
        have hlenq := hf.lineage_length_le hlq hQ
        rw [List.length_cons] at hlenq
        obtain ⟨t, ht, hid⟩ := ih (f.room - (l.length + 1)) (by omega) hQ (q :: l) hlq hlenq rfl
        exact ⟨t, fun _ => ⟨hpar ▸ ht, hid⟩⟩
      · exact ⟨.node q "" ∅ [], fun h => (hpq h).elim⟩
    choose sub hsub using hsub
    let branch : DecayId → Branch := fun d =>
      (f.decay? d).elim (.mk d ∅ []) fun D => .mk d D.params (D.products.map sub)
    have hbranch : ∀ d ∈ P.decays, ∃ D, f.decay? d = some D ∧ D.parent = some p ∧
        branch d = .mk d D.params (D.products.map sub) := by
      intro d hd
      obtain ⟨D, hD, hpar⟩ := hf.listed hp hd
      exact ⟨D, hD, hpar, by simp only [branch, hD, Option.elim_some]⟩
    refine ⟨.node p P.type P.params (P.decays.map branch), .node (n := P.serial) ?_ ?_ ?_, rfl⟩
    · rw [hp, List.map_map, List.map_congr_left (g := id), List.map_id]
      intro d hd
      obtain ⟨D, -, -, hb⟩ := hbranch d hd
      rw [Function.comp_apply, hb]
      rfl
    · intro b hb
      obtain ⟨d, hd, rfl⟩ := List.mem_map.mp hb
      obtain ⟨D, hD, hpar, hb⟩ := hbranch d hd
      rw [hb]
      refine ⟨D.serial, ?_⟩
      show f.decay? d = some ⟨(D.products.map sub).map Tree.id, D.params, some p, D.serial⟩
      rw [hD, List.map_map, List.map_congr_left (g := id), List.map_id, ← hpar]
      intro q hq
      exact (hsub q (hf.product hD hpar hq)).2
    · intro b hb t ht
      obtain ⟨d, hd, rfl⟩ := List.mem_map.mp hb
      obtain ⟨D, hD, hpar, hb⟩ := hbranch d hd
      rw [hb] at ht
      obtain ⟨q, hq, rfl⟩ := List.mem_map.mp ht
      exact (hsub q (hf.product hD hpar hq)).1

end DecayForest.Forest
