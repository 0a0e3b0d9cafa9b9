import DecayForest.Proofs.Forest.Tree
/-!
# Choices and their number

`choices` goes along with maps and with relations item by item. The number of alternatives that
`Tree.count` finds is the length of `Tree.alternatives`, cut off at `maxCount`, so a limit below that
is passed by the one as it is by the other.
-/

namespace DecayForest

variable {α β : Type}

theorem choices_map (φ : α → β) (ls : List (List α)) :
    choices (ls.map (List.map φ)) = (choices ls).map (List.map φ) := by
  induction ls with
  | nil => rfl
  | cons items ls ih =>
    rw [List.map_cons, choices, choices, ih, List.flatMap_map, List.map_flatMap]
    refine congrArg List.flatten (List.map_congr_left fun a _ => ?_)
    rw [List.map_map, List.map_map]
    rfl

/-- A choice takes an item of each list. -/
theorem forall₂_of_mem_choices {ls : List (List α)} {choice : List α} (h : choice ∈ choices ls) :
    List.Forall₂ (· ∈ ·) choice ls := by
  induction ls generalizing choice with
  | nil =>
    cases List.mem_singleton.mp h
    exact .nil
  | cons items ls ih =>
    obtain ⟨a, ha, hchoice⟩ := List.mem_flatMap.mp h
    obtain ⟨rest, hrest, rfl⟩ := List.mem_map.mp hchoice
    exact .cons ha (ih hrest)

theorem length_choices_cons (items : List α) (ls : List (List α)) :
    (choices (items :: ls)).length = items.length * (choices ls).length := by
  rw [choices, List.length_flatMap]
  induction items with
  | nil => rw [List.length_nil, Nat.zero_mul]; rfl
  | cons a items ih =>
    rw [List.map_cons, List.sum_cons, ih, List.length_map, List.length_cons, Nat.succ_mul,
      Nat.add_comm]

/-! ### Counts -/

theorem maxCount_pos : 0 < maxCount := by decide

theorem min_mul_min (a b : Nat) :
    min maxCount (min maxCount a * min maxCount b) = min maxCount (a * b) := by
  have hpos := maxCount_pos
  generalize maxCount = M at *
  rcases Nat.eq_zero_or_pos a with rfl | ha
  · simp
  rcases Nat.eq_zero_or_pos b with rfl | hb
  · simp
  have hab : max a b ≤ a * b := Nat.max_le.mpr ⟨Nat.le_mul_of_pos_right a hb, Nat.le_mul_of_pos_left b ha⟩
  by_cases haM : a ≤ M <;> by_cases hbM : b ≤ M
  · rw [Nat.min_eq_right haM, Nat.min_eq_right hbM]
  · have hM : M ≤ a * M := Nat.le_mul_of_pos_left M ha
    rw [Nat.min_eq_right haM, Nat.min_eq_left (Nat.le_of_not_le hbM)]
    omega
  · have hM : M ≤ M * b := Nat.le_mul_of_pos_right M hb
    rw [Nat.min_eq_left (Nat.le_of_not_le haM), Nat.min_eq_right hbM]
    omega
  · have hM : M ≤ M * M := Nat.le_mul_of_pos_right M hpos
    rw [Nat.min_eq_left (Nat.le_of_not_le haM), Nat.min_eq_left (Nat.le_of_not_le hbM)]
    omega

theorem countProducts_eq {ts : List Tree}
    (h : ∀ t ∈ ts, t.count = min maxCount t.alternatives.length) :
    countProducts ts = min maxCount (choices (ts.map Tree.alternatives)).length := by
  induction ts with
  | nil => rfl
  | cons t ts ih =>
    rw [countProducts, List.map_cons, length_choices_cons, h t List.mem_cons_self,
      ih fun u hu => h u (List.mem_cons_of_mem t hu), min_mul_min]

theorem countBranches_eq {bs : List Branch}
    (h : ∀ b ∈ bs, ∀ t ∈ b.products, t.count = min maxCount t.alternatives.length) :
    countBranches bs =
      min maxCount (bs.flatMap fun b => choices (b.products.map Tree.alternatives)).length := by
  induction bs with
  | nil => rfl
  | cons b bs ih =>
    rcases b with ⟨d, params, ts⟩
    have hb : ∀ t ∈ ts, t.count = min maxCount t.alternatives.length :=
      h (.mk d params ts) List.mem_cons_self
    rw [countBranches, Branch.count, countProducts_eq hb,
      ih fun c hc => h c (List.mem_cons_of_mem _ hc), List.flatMap_cons, List.length_append]
    simp only [Branch.products]
    omega

/-- The count of alternatives is the number of them, up to the largest count. -/
theorem Tree.count_eq (t : Tree) : t.count = min maxCount t.alternatives.length := by
  induction t using Tree.induction with
  | node id type params branches ih =>
    rcases branches with _ | ⟨b, bs⟩
    · rw [Tree.alternatives_leaf]
      rfl
    · rw [Tree.count, countBranches_eq ih, Tree.alternatives_node (List.cons_ne_nil b bs),
        List.length_flatMap, List.length_flatMap]
      · simp only [List.length_map]
      · exact nofun

/-- A limit below the largest count is exceeded by the count where it is by the number. -/
theorem Tree.lt_count_iff (t : Tree) {limit : Nat} (h : limit < maxCount) :
    limit < t.count ↔ limit < t.alternatives.length := by
  rw [t.count_eq, Nat.lt_min]
  exact and_iff_right h

/-! ### What alternatives have in common with their tree -/

namespace Tree

variable {t u : Tree} {s : Shape} {id : ParticleId} {type : String} {params : ParamList}
  {branches : List Branch}

/-- An alternative is a leaf, or it takes a decay and an alternative for each product of it. -/
theorem mem_alternatives_node : s ∈ (node id type params branches).alternatives ↔
    (branches = [] ∧ s = .node type params []) ∨
      ∃ b ∈ branches, ∃ choice ∈ choices (b.products.map alternatives),
        s = .node type params [.mk b.params choice] := by
  rcases branches with _ | ⟨b, bs⟩
  · rw [alternatives_leaf, List.mem_singleton]
    simp
  · rw [alternatives_node (List.cons_ne_nil b bs)]
    simp only [List.mem_flatMap, List.mem_map, List.cons_ne_nil, false_and, false_or, eq_comm]

theorem type_of_mem_alternatives (h : s ∈ t.alternatives) : s.type = t.type := by
  rcases t with ⟨id, type, params, branches⟩
  rcases mem_alternatives_node.mp h with ⟨-, rfl⟩ | ⟨b, -, choice, -, rfl⟩ <;> rfl

theorem map_type_of_mem_choices {ts : List Tree} {choice : List Shape}
    (h : choice ∈ choices (ts.map alternatives)) : choice.map Shape.type = ts.map Tree.type := by
  have hmem := forall₂_of_mem_choices h
  rw [List.forall₂_map_right_iff] at hmem
  exact forall₂_iff_map_eq.mp (hmem.imp fun _ _ hs => type_of_mem_alternatives hs)

/-- A tree with the shape of an alternative: a leaf, or one with a single decay, taken from the tree, into
trees with the shapes of alternatives of its products. -/
theorem branches_of_mem_alternatives (h : u.shape ∈ t.alternatives) :
    u.branches = [] ∨ ∃ b c, u.branches = [b] ∧ c ∈ t.branches ∧ b.params = c.params ∧
      List.Forall₂ (fun v w => v.shape ∈ w.alternatives) b.products c.products := by
  rcases t with ⟨id, type, params, branches⟩
  rcases u with ⟨id', type', params', branches'⟩
  rw [shape_node] at h
  rcases mem_alternatives_node.mp h with ⟨-, heq⟩ | ⟨c, hc, choice, hchoice, heq⟩
  · exact .inl (List.map_eq_nil_iff.mp (Shape.node.inj heq).2.2)
  · obtain ⟨b, rfl, hb⟩ := List.map_eq_singleton_iff.mp (Shape.node.inj heq).2.2
    obtain ⟨hparams, rfl⟩ := Shape.Decay.mk.inj hb
    have hmem := forall₂_of_mem_choices hchoice
    rw [List.forall₂_map_left_iff, List.forall₂_map_right_iff] at hmem
    exact .inr ⟨b, c, rfl, hc, hparams, hmem⟩

/-- No particle of an alternative has more than one decay. -/
theorem resolved_of_mem_alternatives (h : u.shape ∈ t.alternatives) : u.Resolved := by
  induction u using Tree.induction generalizing t with
  | node id type params branches ih =>
    rw [resolved_node]
    rcases branches_of_mem_alternatives h with hnil | ⟨b, c, hone, -, -, hproducts⟩
    · cases hnil
      exact ⟨Nat.zero_le 1, nofun⟩
    · cases hone
      refine ⟨Nat.le_refl 1, fun b' hb' v hv => ?_⟩
      cases List.mem_singleton.mp hb'
      obtain ⟨w, -, hvw⟩ := exists_right_of_forall₂ hproducts hv
      exact ih _ hb' v hv hvw

/-- What holds all over a tree holds all over its alternatives. -/
theorem all_of_mem_alternatives {particle : String → ParamList → Prop} {decay : ParamList → Prop}
    (h : u.shape ∈ t.alternatives) (ht : t.All particle decay) : u.All particle decay := by
  induction u using Tree.induction generalizing t with
  | node id type params branches ih =>
    have hbranches := branches_of_mem_alternatives h
    rcases t with ⟨id', type', params', branches'⟩
    obtain ⟨rfl, rfl⟩ : type = type' ∧ params = params' := by
      rw [shape_node] at h
      rcases mem_alternatives_node.mp h with ⟨-, heq⟩ | ⟨_, _, _, _, heq⟩ <;>
        exact ⟨(Shape.node.inj heq).1, (Shape.node.inj heq).2.1⟩
    obtain ⟨htop, hbelow⟩ := all_node.mp ht
    refine all_node.mpr ⟨htop, fun b hb => ?_⟩
    rcases hbranches with hnil | ⟨b', c, hone, hc, hparams, hproducts⟩
    · cases hnil
      cases hb
    · cases hone
      cases List.mem_singleton.mp hb
      refine ⟨hparams ▸ (hbelow c hc).1, fun v hv => ?_⟩
      obtain ⟨w, hw, hvw⟩ := exists_right_of_forall₂ hproducts hv
      exact ih _ hb v hv hvw ((hbelow c hc).2 w hw)

/-- An alternative is no higher than the tree. -/
theorem height_le_of_mem_alternatives (h : u.shape ∈ t.alternatives) : u.height ≤ t.height := by
  induction u using Tree.induction generalizing t with
  | node id type params branches ih =>
    refine height_le_iff.mpr fun v hv => ?_
    obtain ⟨b', hb', hvb⟩ := mem_children.mp hv
    rcases branches_of_mem_alternatives h with hnil | ⟨b, c, hone, hc, -, hproducts⟩
    · cases hnil
      cases hb'
    · cases hone
      cases List.mem_singleton.mp hb'
      obtain ⟨w, hw, hvw⟩ := exists_right_of_forall₂ hproducts hvb
      exact Nat.lt_of_le_of_lt (ih _ hb' v hvb hvw)
        (height_lt_of_mem_children (mem_children.mpr ⟨c, hc, hw⟩))

end Tree

end DecayForest
