import DecayForest.Proofs.Forest.Editing
import DecayForest.Proofs.Forest.Subtree
/-!
# Walks through linked forests

The walks of `Forest.Walk` are bounded by the number of slots. In a linked forest that bound is never
reached: `preorder` lists the particles of a tree, `depth` is its height, and `tree` reads it or
refuses it for its height alone.
-/

namespace DecayForest

namespace Tree

theorem height_lt_length_ids (t : Tree) : t.height < t.ids.length := by
  induction t using Tree.induction with
  | node id type params branches ih =>
    rw [ids_eq, List.length_cons, Nat.lt_succ_iff, height_le_iff]
    intro u hu
    obtain ⟨b, hb, hub⟩ := mem_children.mp hu
    refine Nat.lt_of_lt_of_le (ih b hb u hub) ?_
    exact (List.sublist_flatten_of_mem (List.mem_map_of_mem hu)).length_le

end Tree

namespace Forest

variable {f : Forest} {p : ParticleId} {P : Particle} {parent : Option ParticleId} {t : Tree}

theorem products_eq (f : Forest) (P : Particle) : f.products P = f.productsOf P.decays := rfl

theorem Shows.products_eq (h : f.Shows parent t) (hp : f.particle? t.id = some P) :
    f.products P = t.children.map Tree.id := by
  obtain ⟨P', hP', -, hdecays, -⟩ := h.top
  cases hp.symm.trans hP'
  rw [Forest.products_eq, hdecays, h.productsOf_branches]

/-! ### The walk through all particles -/

theorem preorderFrom_nil (n : Nat) : f.preorderFrom n [] = [] := by
  cases n <;> rfl

/-- The walk begins at the particle. -/
theorem exists_preorder (hp : f.particle? p = some P) : ∃ l, f.preorder p = p :: l := by
  have hpos : 0 < f.room := Nat.zero_lt_of_lt (Arena.slot_lt_size hp)
  obtain ⟨n, hn⟩ := Nat.exists_eq_succ_of_ne_zero (Nat.ne_of_gt hpos)
  exact ⟨f.preorderFrom n (f.products P ++ []), by rw [preorder, hn, preorderFrom, hp]⟩

/-- With enough room, the walk goes through the first pending tree and then through the others. -/
theorem Shows.preorderFrom_cons (h : f.Shows parent t) (n : Nat) (pending : List ParticleId) :
    f.preorderFrom (t.ids.length + n) (t.id :: pending) =
      t.ids ++ f.preorderFrom n pending := by
  induction t using Tree.induction generalizing parent n pending with
  | node id type params branches ih =>
    have hall : ∀ us : List Tree, (∀ u ∈ us, u ∈ (Tree.node id type params branches).children) →
        ∀ n, f.preorderFrom ((us.flatMap Tree.ids).length + n) (us.map Tree.id ++ pending) =
          us.flatMap Tree.ids ++ f.preorderFrom n pending := by
      intro us hus n
      induction us with
      | nil => simp
      | cons u us ihs =>
        have hu := hus u List.mem_cons_self
        obtain ⟨b, hb, hub⟩ := Tree.mem_children.mp hu
        rw [List.map_cons, List.cons_append, List.flatMap_cons, List.length_append, Nat.add_assoc,
          ih b hb u hub (h.child hu),
          ihs fun v hv => hus v (List.mem_cons_of_mem u hv), List.append_assoc]
    obtain ⟨P, hP, -⟩ := h.top
    rw [Tree.ids_eq, List.length_cons, Nat.add_right_comm, preorderFrom, hP]
    show _ :: f.preorderFrom _ (f.products P ++ pending) = _
    rw [h.products_eq hP, hall _ fun _ hu => hu]
    rfl

theorem Shows.preorder_eq (hf : Linked f) (h : f.Shows parent t) : f.preorder t.id = t.ids := by
  obtain ⟨n, hn⟩ := Nat.exists_eq_add_of_le (h.length_ids_le hf)
  rw [preorder, hn, h.preorderFrom_cons, preorderFrom_nil, List.append_nil]

/-- The walk down from a particle comes to all that it stands above, and to each of them once. -/
theorem Linked.mem_preorder (hf : Linked f) (hp : f.particle? p = some P) :
    (∀ x, x ∈ f.preorder p ↔ f.Above p x) ∧ (f.preorder p).Nodup := by
  obtain ⟨t, ht, rfl⟩ := hf.exists_tree hp
  rw [ht.preorder_eq hf]
  exact ⟨fun x => ht.mem_ids_iff hf, ht.nodup_ids hf⟩

/-! ### The height -/

theorem Shows.mapM_decay_eq (h : f.Shows parent t) :
    ∃ Ds, (t.branches.map Branch.id).mapM f.decay = .ok Ds ∧
      Ds.flatMap Decay.products = t.children.map Tree.id := by
  have hlive : ∀ d ∈ t.branches.map Branch.id, ∃ D, f.decay d = .ok D := by
    intro d hd
    obtain ⟨b, hb, rfl⟩ := List.mem_map.mp hd
    obtain ⟨n, hn⟩ := h.branch hb
    exact ⟨_, decay_of_some hn⟩
  obtain ⟨Ds, hDs, -⟩ := mapM_eq_ok hlive
  exact ⟨Ds, hDs, (mapM_decay_eq_ok hDs).trans h.productsOf_branches⟩

theorem Shows.heightFrom_eq (h : f.Shows parent t) {n : Nat} (hn : t.height ≤ n) :
    f.heightFrom n t.id = .ok t.height := by
  induction t using Tree.induction generalizing parent n with
  | node id type params branches ih =>
    cases n with
    | zero => exact congrArg Except.ok (Nat.le_zero.mp hn).symm
    | succ n =>
      obtain ⟨P, hP, -, hdecays, -⟩ := h.top
      have hstep : ∀ m, ∀ u ∈ (Tree.node id type params branches).children, (do
          return max m ((← f.heightFrom n u.id) + 1) : Except ModelError Nat) =
            .ok (max m (u.height + 1)) := by
        intro m u hu
        obtain ⟨b, hb, hub⟩ := Tree.mem_children.mp hu
        rw [ih b hb u hub (h.child hu) (Nat.le_of_lt_succ (Tree.height_le_iff.mp hn u hu))]
        rfl
      rw [heightFrom, particle_of_some hP]
      show (P.decays.mapM f.decay >>= fun decays => (decays.flatMap Decay.products).foldlM _ 0) = _
      obtain ⟨Ds, hDs, hproducts⟩ := h.mapM_decay_eq
      rw [hdecays, hDs]
      show (Ds.flatMap Decay.products).foldlM _ 0 = _
      rw [hproducts, List.foldlM_map, Tree.height_eq]
      exact foldlM_eq_ok_foldl hstep 0

theorem Shows.depth_eq (hf : Linked f) (h : f.Shows parent t) : f.depth t.id = .ok t.height := by
  obtain ⟨P, hP, -⟩ := h.top
  have hheight := Nat.le_of_lt (Nat.lt_of_lt_of_le t.height_lt_length_ids (h.length_ids_le hf))
  rw [depth, particle_of_some hP]
  exact h.heightFrom_eq hheight

/-- The height is the length of the longest way down. -/
theorem Shows.length_le_height (hf : Linked f) (h : f.Shows parent t) {l : List ParticleId}
    (hl : (t.id :: l).IsChain f.ParentOf) : l.length ≤ t.height := by
  induction t using Tree.induction generalizing parent l with
  | node id type params branches ih =>
    rcases l with _ | ⟨x, l⟩
    · exact Nat.zero_le _
    · obtain ⟨hx, hl⟩ := List.isChain_cons_cons.mp hl
      obtain ⟨u, hu, rfl⟩ := h.exists_child hf hx
      obtain ⟨b, hb, hub⟩ := Tree.mem_children.mp hu
      exact Nat.lt_of_le_of_lt (ih b hb u hub (h.child hu) hl) (Tree.height_lt_of_mem_children hu)

theorem Shows.exists_chain (h : f.Shows parent t) :
    ∃ l : List ParticleId, (t.id :: l).IsChain f.ParentOf ∧ l.length = t.height := by
  induction t using Tree.induction generalizing parent with
  | node id type params branches ih =>
    rcases hheight : (Tree.node id type params branches).height with _ | n
    · exact ⟨[], .singleton _, rfl⟩
    · obtain ⟨u, hu, hun⟩ : ∃ u ∈ (Tree.node id type params branches).children, n ≤ u.height := by
        refine Classical.by_contradiction fun hnone => ?_
        have hle : (Tree.node id type params branches).height ≤ n :=
          Tree.height_le_iff.mpr fun u hu => Nat.lt_of_not_le fun hn => hnone ⟨u, hu, hn⟩
        omega
      have hlt := Tree.height_lt_of_mem_children hu
      obtain ⟨b, hb, hub⟩ := Tree.mem_children.mp hu
      obtain ⟨l, hl, hlen⟩ := ih b hb u hub (h.child hu)
      refine ⟨u.id :: l, List.isChain_cons_cons.mpr ⟨h.parentOf_child hu, hl⟩, ?_⟩
      rw [List.length_cons]
      omega

theorem Shows.checkDepth_eq (hf : Linked f) (h : f.Shows parent t) :
    f.checkDepth t.id =
      if maxDepth < t.height then .error (.tooDeep (f.label t.id) t.height) else .ok () := by
  rw [checkDepth, h.depth_eq hf]
  rfl

/-! ### Reading -/

theorem Shows.treeFrom_eq (h : f.Shows parent t) {n : Nat} (hn : t.height < n) :
    f.treeFrom n t.id = .ok t := by
  induction t using Tree.induction generalizing parent n with
  | node id type params branches ih =>
    cases n with
    | zero => exact (Nat.not_lt_zero _ hn).elim
    | succ n =>
      have hbranch : ∀ b ∈ branches, (do
          let D ← f.decay b.id
          return Branch.mk b.id D.params (← D.products.mapM (f.treeFrom n)) :
            Except ModelError Branch) = .ok b := by
        rintro ⟨d, ps, ts⟩ hb
        have hproducts : (ts.map Tree.id).mapM (f.treeFrom n) = .ok ts := by
          refine mapM_map_eq_ok fun u hu => ?_
          have hchild : u ∈ (Tree.node id type params branches).children :=
            Tree.mem_children.mpr ⟨_, hb, hu⟩
          exact ih _ hb u hu (h.child hchild)
            (Nat.lt_of_lt_of_le (Tree.height_lt_of_mem_children hchild) (Nat.le_of_lt_succ hn))
        obtain ⟨serial, hD⟩ := h.branch hb
        rw [decay_of_some hD]
        show (do return Branch.mk d ps (← (ts.map Tree.id).mapM (f.treeFrom n)) :
          Except ModelError Branch) = _
        rw [hproducts]
        rfl
      obtain ⟨P, hP, -, hdecays, htop⟩ := h.top
      cases htop
      rw [treeFrom, particle_of_some hP]
      show (do
        let branches ← P.decays.mapM _
        return Tree.node id P.type P.params branches : Except ModelError Tree) = _
      rw [hdecays, Tree.branches_node, mapM_map_eq_ok hbranch]
      rfl

/-- A tree is read, or refused for its height. -/
theorem Shows.tree_eq (hf : Linked f) (h : f.Shows parent t) :
    f.tree t.id =
      if maxDepth < t.height then .error (.tooDeep (f.label t.id) t.height) else .ok t := by
  rw [tree, h.checkDepth_eq hf]
  split
  · rfl
  · next hle => exact h.treeFrom_eq (Nat.lt_succ_of_le (Nat.le_of_not_lt hle))

theorem Shows.tree_of_le (hf : Linked f) (h : f.Shows parent t) (hheight : t.height ≤ maxDepth) :
    f.tree t.id = .ok t := by
  rw [h.tree_eq hf, if_neg (Nat.not_lt_of_le hheight)]

end Forest

end DecayForest
