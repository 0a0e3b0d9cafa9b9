import DecayForest.Proofs.Forest.Refusal
import Mathlib.Algebra.GroupWithZero.Nat
/-!
# Exact numbers of alternatives

The number of alternatives of a particle without any bound on it: one for a particle without decays, else
the sum over the decays of the products of the numbers of their products (`Numbered`). A count stops at
`maxCount` in each step. Whether it goes from the first item to the last or the other way round, it comes to
the exact number, cut off once (`count_eq_foldl`, `Tree.count_eq_ways`). So a limit is never passed by a
count that has been cut off, and an expansion makes exactly as many trees as the number says
(`Reachable.count_exact`).
-/

namespace DecayForest

/-! ### Steps that stop at the largest count -/

variable {n : Nat}

/-- A factor that has been cut off before is cut off again. -/
theorem min_mul (a b : Nat) : min maxCount (min maxCount a * b) = min maxCount (a * b) := by
  rw [← min_mul_min, ← min_mul_min a b]
  simp

/-- Factors that are taken one by one, with each result cut off, make up the cut-off product. -/
theorem foldl_mul_saturates (ns : List Nat) (hn : n ≤ maxCount) :
    ns.foldl (fun n m => min maxCount (n * m)) n = min maxCount (n * ns.prod) := by
  induction ns generalizing n with
  | nil => simp [hn]
  | cons m ns ih =>
    rw [List.foldl_cons, ih (Nat.min_le_left _ _), min_mul, List.prod_cons, Nat.mul_assoc]

/-- Terms that are added one by one, with each result cut off, make up the cut-off sum. -/
theorem foldl_add_saturates (ns : List Nat) (hn : n ≤ maxCount) :
    ns.foldl (fun n m => min maxCount (n + m)) n = min maxCount (n + ns.sum) := by
  induction ns generalizing n with
  | nil => simp [hn]
  | cons m ns ih =>
    rw [List.foldl_cons, ih (Nat.min_le_left _ _), List.sum_cons]
    omega

theorem countProducts_eq_prod (ts : List Tree) :
    countProducts ts = min maxCount (ts.map Tree.count).prod := by
  induction ts with
  | nil => rfl
  | cons t ts ih =>
    rw [countProducts, ih, List.map_cons, List.prod_cons, Nat.mul_comm, min_mul, Nat.mul_comm]

theorem countBranches_eq_sum (bs : List Branch) :
    countBranches bs = min maxCount (bs.map Branch.count).sum := by
  induction bs with
  | nil => rfl
  | cons b bs ih =>
    rw [countBranches, ih, List.map_cons, List.sum_cons]
    omega

theorem Branch.count_eq_foldl (b : Branch) :
    b.count = b.products.foldl (fun n t => min maxCount (n * t.count)) 1 := by
  cases b with
  | mk id params ts =>
    have hfold := foldl_mul_saturates (ts.map Tree.count) maxCount_pos
    rw [List.foldl_map, Nat.one_mul, ← countProducts_eq_prod] at hfold
    exact hfold.symm

/-- The count of a tree is the same if the decays, and the products of each, are counted from the first to
the last and what has been counted is cut off each time. -/
theorem Tree.count_eq_foldl {id : ParticleId} {type : String} {params : ParamList}
    {branches : List Branch} (h : branches ≠ []) : (Tree.node id type params branches).count =
      branches.foldl (fun n b => min maxCount (n +
        b.products.foldl (fun n t => min maxCount (n * t.count)) 1)) 0 := by
  have hfold := foldl_add_saturates (branches.map Branch.count) (Nat.zero_le maxCount)
  rw [List.foldl_map, Nat.zero_add, ← countBranches_eq_sum] at hfold
  simp only [← Branch.count_eq_foldl]
  rw [hfold, Tree.count]
  exact h

/-! ### Exact numbers -/

namespace Tree

variable {t : Tree} {id : ParticleId} {type : String} {params : ParamList} {branches : List Branch}

/-- The number of alternatives of a tree. -/
def ways : Tree → Nat :=
  fold fun _ _ _ below => if below = [] then 1 else (below.map fun (_, _, inner) => inner.prod).sum

theorem ways_leaf : (node id type params []).ways = 1 := by
  rw [ways, fold_node]
  rfl

theorem ways_node (h : branches ≠ []) : (node id type params branches).ways =
    (branches.map fun b => (b.products.map ways).prod).sum := by
  rw [ways, fold_node, if_neg (by simpa using h), List.map_map]
  rfl

end Tree

theorem length_choices {α : Type} (ls : List (List α)) : (choices ls).length = (ls.map List.length).prod := by
  induction ls with
  | nil => rfl
  | cons items ls ih => rw [length_choices_cons, ih, List.map_cons, List.prod_cons]

/-- There are as many alternatives as the number says. -/
theorem Tree.length_alternatives (t : Tree) : t.alternatives.length = t.ways := by
  induction t using Tree.induction with
  | node id type params branches ih =>
    by_cases h : branches = []
    · rw [h, alternatives_leaf, ways_leaf]
      rfl
    · rw [alternatives_node h, ways_node h, List.length_flatMap]
      apply congrArg List.sum
      apply List.map_congr_left
      intro b hb
      rw [List.length_map, length_choices, List.map_map]
      exact congrArg List.prod (List.map_congr_left (ih b hb))

theorem Tree.count_eq_ways (t : Tree) : t.count = min t.ways maxCount := by
  rw [t.count_eq, t.length_alternatives, Nat.min_comm]

namespace Forest

variable {f g : Forest} {parent : Option ParticleId} {t : Tree} {limit : Nat} {N : ParticleId → Nat}

/-- Numbers of alternatives for the particles of a forest, without bound: one for a particle without
decays, and else the sum over the decays of the products of the numbers of their products. -/
def Numbered (f : Forest) (N : ParticleId → Nat) : Prop :=
  ∀ p P, f.particle? p = some P → N p =
    if P.decays = [] then 1 else (P.decays.map fun d => ((f.productsOf [d]).map N).prod).sum

/-- The number of alternatives of a particle. -/
def ways (f : Forest) (p : ParticleId) : Nat :=
  match f.treeFrom f.room p with
  | .ok t => t.ways
  | .error _ => 0

theorem Shows.productsOf_branch {b : Branch} (h : f.Shows parent t) (hb : b ∈ t.branches) :
    f.productsOf [b.id] = b.products.map Tree.id := by
  obtain ⟨n, hB⟩ := h.branch hb
  simp [productsOf, hB]

theorem Shows.ways_eq (hf : Linked f) (h : f.Shows parent t) : f.ways t.id = t.ways := by
  have hheight := Nat.lt_of_lt_of_le t.height_lt_length_ids (h.length_ids_le hf)
  rw [ways, h.treeFrom_eq hheight]

/-- What adds up at the top of a tree, if the numbers are known below it. -/
theorem Shows.sum_products (h : f.Shows parent t) (hN : ∀ u ∈ t.children, N u.id = u.ways) :
    t.ways = if t.branches = [] then 1 else
      ((t.branches.map Branch.id).map fun d => ((f.productsOf [d]).map N).prod).sum := by
  cases t with
  | node id type params branches =>
    rw [Tree.branches_node]
    split
    · next hnil => rw [hnil, Tree.ways_leaf]
    · next hne =>
      rw [Tree.ways_node hne, List.map_map]
      apply congrArg List.sum
      apply List.map_congr_left
      intro b hb
      rw [Function.comp_apply, h.productsOf_branch hb, List.map_map]
      apply congrArg List.prod
      apply List.map_congr_left
      intro u hu
      exact (hN u (Tree.mem_children.mpr ⟨b, hb, hu⟩)).symm

/-- Numbers that add up are those of the trees. -/
theorem Numbered.eq_ways (hN : f.Numbered N) (h : f.Shows parent t) : N t.id = t.ways := by
  induction t using Tree.induction generalizing parent with
  | node id type params branches ih =>
    have hbelow : ∀ u ∈ (Tree.node id type params branches).children, N u.id = u.ways := by
      intro u hu
      obtain ⟨b, hb, hub⟩ := Tree.mem_children.mp hu
      exact ih b hb u hub (h.child hu)
    obtain ⟨n, hX⟩ := h.particle?_node
    rw [h.sum_products hbelow, Tree.id_node, hN id _ hX, Tree.branches_node]
    simp only [List.map_eq_nil_iff]

theorem Linked.numbered_ways (hf : Linked f) : f.Numbered f.ways := by
  intro p P hp
  obtain ⟨t, ht, rfl⟩ := hf.exists_tree hp
  obtain ⟨Q, hQ, -, hdecays, -⟩ := ht.top
  cases hp.symm.trans hQ
  rw [ht.ways_eq hf, hdecays, ht.sum_products fun u hu => (ht.child hu).ways_eq hf]
  simp only [List.map_eq_nil_iff]

/-- The only error of an expansion that tells a number of alternatives is that of its first check. -/
theorem Linked.expand_tooMany_iff (hf : Linked f) (ht : f.Shows parent t) (hheight : t.height ≤ maxDepth) :
    (∃ g name count bound,
      (expand t.id limit).on f = (.error (.tooManyAlternatives name count bound), g)) ↔
      limit < t.count := by
  constructor
  · rintro ⟨g, name, count, bound, hrun⟩
    apply Classical.by_contradiction
    intro hcount
    rw [Edit.on_expand_eq hf ht, if_neg (Nat.not_lt_of_le hheight), if_neg hcount] at hrun
    have hroom := Nat.lt_succ_of_le hheight
    by_cases hw : f.Weighable t
    · obtain ⟨k, us, vs, hok, -⟩ := Edit.on_expandFrom hf rfl ht hroom hw
      cases hok.symm.trans hrun
    · obtain ⟨e, k, ts, hfail, -, hfault⟩ := Edit.on_expandFrom_refused hf ht hroom hw
      cases hfail.symm.trans hrun
      obtain ⟨_, _, _, _, -, -, -, -, -, heq⟩ := hf.faultBelow_error ht hfault
      cases heq
  · intro hcount
    rw [Edit.on_expand_eq hf ht, if_neg (Nat.not_lt_of_le hheight), if_pos hcount]
    exact ⟨f, _, _, _, rfl⟩

/-- The count of the alternatives of a particle is the exact number of them, cut off at the largest count.
A limit is a machine word. It is passed by the count where it is by the exact number, and an expansion
within the limit makes exactly so many trees, if no branching fraction is at fault. -/
theorem Reachable.count_exact (h : Reachable f) :
    (∃ N, f.Numbered N) ∧
    ∀ N, f.Numbered N → ∀ p P n, f.particle? p = some P → f.depth p = .ok n → n ≤ maxDepth →
      f.alternativeCount p = .ok (min (N p) maxCount) ∧
      ∀ limit < 2 ^ 64,
        ((∃ g name count bound,
          (expand p limit).on f = (.error (.tooManyAlternatives name count bound), g)) ↔
            limit < N p) ∧
        (limit < N p → (expand p limit).on f =
          (.error (.tooManyAlternatives P.type (min (N p) maxCount) limit), f)) ∧
        ∀ as g, (expand p limit).on f = (.ok as, g) → as.length = N p := by
  have hf := h.linked
  refine ⟨⟨f.ways, hf.numbered_ways⟩, ?_⟩
  intro N hN p P n hp hn hle
  obtain ⟨t, ht, rfl⟩ := hf.exists_tree hp
  have hheight : t.height ≤ maxDepth := by
    cases (ht.depth_eq hf).symm.trans hn
    exact hle
  rw [hN.eq_ways ht]
  refine ⟨?_, ?_⟩
  · rw [alternativeCount, ht.tree_of_le hf hheight, ← t.count_eq_ways]
    rfl
  · intro limit hlimit
    have hmax : limit < maxCount := Nat.lt_trans hlimit (by decide)
    have hcount : limit < t.count ↔ limit < t.ways := by
      rw [t.lt_count_iff hmax, t.length_alternatives]
    refine ⟨?_, ?_, ?_⟩
    · rw [hf.expand_tooMany_iff ht hheight, hcount]
    · intro hways
      rw [Edit.on_expand_eq hf ht, if_neg (Nat.not_lt_of_le hheight), if_pos (hcount.mpr hways),
        ← t.count_eq_ways]
      simp [label, hp]
    · intro as g hrun
      obtain ⟨-, -, us, vs, rfl, -, hyields⟩ := Edit.expand_eq_ok hf ht hrun
      have hlength := congrArg List.length hyields.shapes
      simpa [t.length_alternatives] using hlength

theorem count_exact_twoWays : twoWays.alternativeCount ⟨0, 0⟩ = .ok (min 2 maxCount) ∧
    (expand ⟨0, 0⟩ 1).on twoWays = (.error (.tooManyAlternatives "a" (min 2 maxCount) 1), twoWays) ∧
    ∀ as g, (expand ⟨0, 0⟩ 2).on twoWays = (.ok as, g) → as.length = 2 := by
  obtain ⟨⟨N, hN⟩, hall⟩ := reachable_twoWays.count_exact
  have hleaf : N ⟨1, 0⟩ = 1 := hN ⟨1, 0⟩ _ rfl
  have htop : N ⟨0, 0⟩ = 2 := by
    have hsum : N ⟨0, 0⟩ = [[N ⟨1, 0⟩].prod, [].prod].sum := hN ⟨0, 0⟩ ⟨"a", ∅, none, [⟨0, 0⟩, ⟨1, 0⟩], 0⟩ rfl
    rw [hsum, hleaf]
    rfl
  obtain ⟨hcount, hlimit⟩ := hall N hN ⟨0, 0⟩ ⟨"a", ∅, none, [⟨0, 0⟩, ⟨1, 0⟩], 0⟩ 1 rfl rfl (by decide)
  rw [htop] at hcount hlimit
  exact ⟨hcount, (hlimit 1 (by decide)).2.1 (by decide), (hlimit 2 (by decide)).2.2⟩

end Forest

end DecayForest
