import DecayForest.Proofs.Forest.Reachability
import DecayForest.Proofs.Forest.Walking
import Mathlib.Order.Bounds.Defs
import Mathlib.Order.Nat
/-!
# Walks as loops

The walks of `Forest.Walk` stop after as many steps as there are slots. Here they are loops without any
bound: the walk through a subtree and the measuring of its depth work off a stack (`walkStep`,
`measureStep`), and the way to the root goes from parent to parent (`climbStep`). In a linked forest each of
these loops comes to an end (`Halts`), with what the bounded walk tells. On the stack a tree is worked off
before anything that lies below it, so the runs are found by recursion over the tree that stands there
(`Shows.walk_runs`, `Shows.measure_runs`).

What the walks tell agrees with the parent links, followed step by step (`ancestor?`, `Reachable.walks_agree`).
-/

namespace DecayForest.Forest

/-! ### Loops -/

section

variable {σ : Type} {step : σ → Option σ} {s t u : σ}

/-- A loop gets from one state to another. -/
def Runs (step : σ → Option σ) : σ → σ → Prop :=
  Relation.ReflTransGen fun s t => step s = some t

/-- A loop comes to an end in a state: it gets there, and from there it does not go on. -/
def Halts (step : σ → Option σ) (s t : σ) : Prop :=
  Runs step s t ∧ step t = none

theorem Runs.head (h : step s = some t) (hrest : Runs step t u) : Runs step s u :=
  Relation.ReflTransGen.head h hrest

theorem Runs.trans (h : Runs step s t) (h' : Runs step t u) : Runs step s u :=
  Relation.ReflTransGen.trans h h'

end

/-- One round of the walk through a subtree. The state is the stack of particles to come and the list of
those that have been visited. -/
def walkStep (f : Forest) :
    List ParticleId × List ParticleId → Option (List ParticleId × List ParticleId)
  | ([], _) => none
  | (id :: pending, visited) =>
    (f.particle? id).map fun p => (f.products p ++ pending, visited ++ [id])

/-- One round of measuring the depth. The state is the stack of particles to come, each with its level, and
the deepest level so far. Products are put on the stack one by one, so the last of them comes first. -/
def measureStep (f : Forest) :
    List (ParticleId × Nat) × Nat → Option (List (ParticleId × Nat) × Nat)
  | ([], _) => none
  | ((id, level) :: pending, deepest) => Except.toOption do
    let p ← f.particle id
    let decays ← p.decays.mapM f.decay
    let below := (decays.flatMap Decay.products).map (·, level + 1)
    return (below.reverse ++ pending, max deepest level)

/-- One step upward. -/
def climbStep (f : Forest) (id : ParticleId) : Option ParticleId :=
  (f.particle? id).bind Particle.parent

/-- The particle so many parent links above another, if the links go as far. -/
def ancestor? (f : Forest) : Nat → ParticleId → Option ParticleId
  | 0, q => some q
  | n + 1, q => (f.ancestor? n q).bind f.climbStep

variable {f : Forest} {p q r x : ParticleId} {P Q R : Particle} {parent : Option ParticleId} {t : Tree}
  {n : Nat}

/-! ### Parent links -/

theorem ancestor?_succ : f.ancestor? (n + 1) q = some r ↔
    ∃ x, f.ancestor? n q = some x ∧ f.ParentOf r x :=
  Option.bind_eq_some_iff

/-- Parent links lead from a particle to those that stand above it. -/
theorem exists_ancestor_iff : (∃ n, f.ancestor? n q = some r) ↔ f.Above r q := by
  constructor
  · rintro ⟨n, hn⟩
    induction n generalizing r with
    | zero =>
      cases hn
      exact .refl
    | succ n ih =>
      obtain ⟨x, hx, hrx⟩ := ancestor?_succ.mp hn
      exact .head hrx (ih hx)
  · intro h
    induction h using Relation.ReflTransGen.head_induction_on with
    | refl => exact ⟨0, rfl⟩
    | head hrx _ ih =>
      obtain ⟨n, hn⟩ := ih
      exact ⟨n + 1, ancestor?_succ.mpr ⟨_, hn, hrx⟩⟩

/-- So many parent links are a way down of that length. -/
theorem exists_ancestor_iff_isChain : (∃ q, f.ancestor? n q = some r) ↔
    ∃ l : List ParticleId, (r :: l).IsChain f.ParentOf ∧ l.length = n := by
  induction n generalizing r with
  | zero =>
    constructor
    · intro _
      exact ⟨[], .singleton r, rfl⟩
    · intro _
      exact ⟨r, rfl⟩
  | succ n ih =>
    constructor
    · rintro ⟨q, hq⟩
      obtain ⟨x, hx, hrx⟩ := ancestor?_succ.mp hq
      obtain ⟨l, hl, hlen⟩ := ih.mp ⟨q, hx⟩
      exact ⟨x :: l, List.isChain_cons_cons.mpr ⟨hrx, hl⟩, congrArg (· + 1) hlen⟩
    · rintro ⟨_ | ⟨x, l⟩, hl, hlen⟩
      · cases hlen
      · obtain ⟨hrx, hl⟩ := List.isChain_cons_cons.mp hl
        obtain ⟨q, hq⟩ := ih.mpr ⟨l, hl, Nat.succ.inj hlen⟩
        exact ⟨q, ancestor?_succ.mpr ⟨x, hq, hrx⟩⟩

/-! ### Runs over a tree -/

/-- A loop that works off each of some trees works off all of them, one after the other. -/
private theorem runs_foldl {σ α β : Type} {step : σ → Option σ} (state : List α → β → σ) {top : Tree → α}
    {result : β → Tree → β} {us : List Tree} (pending : List α)
    (h : ∀ u ∈ us, ∀ pending b, Runs step (state (top u :: pending) b) (state pending (result b u)))
    (b : β) : Runs step (state (us.map top ++ pending) b) (state pending (us.foldl result b)) := by
  induction us generalizing b with
  | nil => exact .refl
  | cons u us ih =>
    have hrest := ih (fun v hv => h v (List.mem_cons_of_mem u hv)) (result b u)
    exact (h u List.mem_cons_self _ b).trans hrest

private theorem foldl_ids (us : List Tree) (visited : List ParticleId) :
    us.foldl (fun visited u => visited ++ u.ids) visited = visited ++ us.flatMap Tree.ids := by
  induction us generalizing visited with
  | nil => simp
  | cons u us ih => simp [ih]

/-- A round of the walk visits the top of a tree and puts its products on the stack, the first on top. -/
theorem Shows.walkStep_eq (h : f.Shows parent t) (pending visited : List ParticleId) :
    f.walkStep (t.id :: pending, visited) = some (t.children.map Tree.id ++ pending, visited ++ [t.id]) := by
  obtain ⟨P, hP, -⟩ := h.top
  rw [walkStep, hP, Option.map_some, h.products_eq hP]

/-- The walk works off a tree particle by particle before it comes to anything else. -/
theorem Shows.walk_runs (h : f.Shows parent t) (pending visited : List ParticleId) :
    Runs f.walkStep (t.id :: pending, visited) (pending, visited ++ t.ids) := by
  induction t using Tree.induction generalizing parent pending visited with
  | node id type params branches ih =>
    have hbelow : ∀ u ∈ (Tree.node id type params branches).children, ∀ pending visited,
        Runs f.walkStep (u.id :: pending, visited) (pending, visited ++ u.ids) := by
      intro u hu
      obtain ⟨b, hb, hub⟩ := Tree.mem_children.mp hu
      exact ih b hb u hub (h.child hu)
    have hrest := runs_foldl Prod.mk pending hbelow (visited ++ [id])
    rw [foldl_ids, List.append_assoc] at hrest
    rw [Tree.ids_eq]
    exact .head (h.walkStep_eq pending visited) hrest

private theorem foldl_height_le {us : List Tree} {level deepest k : Nat} :
    us.foldl (fun deepest u => max deepest (level + u.height)) deepest ≤ k ↔
      deepest ≤ k ∧ ∀ u ∈ us, level + u.height ≤ k := by
  induction us generalizing deepest with
  | nil => simp
  | cons u us ih => simp only [List.foldl_cons, ih, Nat.max_le, List.forall_mem_cons, and_assoc]

/-- The deepest level in a tree is that of its top, and its height on top of it. -/
private theorem foldl_height_eq (t : Tree) (level deepest : Nat) :
    t.children.reverse.foldl (fun deepest u => max deepest (level + 1 + u.height)) (max deepest level) =
      max deepest (level + t.height) := by
  apply eq_of_forall_ge_iff
  intro k
  have hheight : level ≤ k ∧ (∀ u ∈ t.children, level + 1 + u.height ≤ k) ↔ level + t.height ≤ k := by
    constructor
    · rintro ⟨hlevel, hbelow⟩
      have hle : t.height ≤ k - level := by
        apply Tree.height_le_iff.mpr
        intro u hu
        have := hbelow u hu
        omega
      omega
    · intro hle
      refine ⟨by omega, fun u hu => ?_⟩
      have := Tree.height_lt_of_mem_children hu
      omega
  simp only [foldl_height_le, List.mem_reverse, Nat.max_le, and_assoc, hheight]

/-- A round of measuring puts the products of the top of a tree on the stack, the last on top. -/
theorem Shows.measureStep_eq (h : f.Shows parent t) (level : Nat) (pending : List (ParticleId × Nat))
    (deepest : Nat) : f.measureStep ((t.id, level) :: pending, deepest) =
      some (t.children.reverse.map (fun u => (u.id, level + 1)) ++ pending, max deepest level) := by
  obtain ⟨P, hP, -, hdecays, -⟩ := h.top
  obtain ⟨Ds, hDs, hproducts⟩ := h.mapM_decay_eq
  rw [← hdecays] at hDs
  rw [measureStep, particle_of_some hP]
  dsimp only [bind, Except.bind]
  rw [hDs]
  dsimp only
  rw [hproducts, List.map_map, ← List.map_reverse]
  rfl

/-- The measuring works off a tree before it comes to anything else, and takes note of its deepest level. -/
theorem Shows.measure_runs (h : f.Shows parent t) (level : Nat) (pending : List (ParticleId × Nat))
    (deepest : Nat) : Runs f.measureStep ((t.id, level) :: pending, deepest)
      (pending, max deepest (level + t.height)) := by
  induction t using Tree.induction generalizing parent level pending deepest with
  | node id type params branches ih =>
    have hbelow : ∀ u ∈ (Tree.node id type params branches).children.reverse, ∀ pending deepest,
        Runs f.measureStep ((u.id, level + 1) :: pending, deepest)
          (pending, max deepest (level + 1 + u.height)) := by
      intro u hu
      have hu := List.mem_reverse.mp hu
      obtain ⟨b, hb, hub⟩ := Tree.mem_children.mp hu
      exact ih b hb u hub (h.child hu) (level + 1)
    have hrest := runs_foldl Prod.mk pending hbelow (max deepest level)
    rw [foldl_height_eq] at hrest
    exact .head (h.measureStep_eq level pending deepest) hrest

/-! ### What the walks tell -/

theorem Shows.walk_halts (hf : Linked f) (h : f.Shows parent t) :
    Halts f.walkStep ([t.id], []) ([], f.preorder t.id) := by
  have hruns := h.walk_runs [] []
  rw [List.nil_append, ← h.preorder_eq hf] at hruns
  exact ⟨hruns, rfl⟩

theorem Shows.measure_halts (h : f.Shows parent t) :
    Halts f.measureStep ([(t.id, 0)], 0) ([], t.height) := by
  have hruns := h.measure_runs 0 [] 0
  rw [Nat.zero_add, Nat.zero_max] at hruns
  exact ⟨hruns, rfl⟩

/-- The climb comes to whatever stands above. -/
theorem climb_runs (h : f.Above r q) : Runs f.climbStep q r :=
  Relation.reflTransGen_swap.mp h

theorem climb_halts (h : f.Above r q) (hR : f.particle? r = some R) (hroot : R.parent = none) :
    Halts f.climbStep q r := by
  refine ⟨climb_runs h, ?_⟩
  rw [climbStep, hR]
  exact hroot

/-- The walk goes through a particle, and then through the trees of its products in order. -/
theorem Linked.preorder_eq (hf : Linked f) (hr : f.particle? r = some R) :
    f.preorder r = r :: (f.products R).flatMap f.preorder := by
  obtain ⟨t, ht, rfl⟩ := hf.exists_tree hr
  rw [ht.preorder_eq hf, Tree.ids_eq, ht.products_eq hr, List.flatMap_map]
  refine congrArg (t.id :: ·) (congrArg List.flatten (List.map_congr_left fun u hu => ?_))
  exact ((ht.child hu).preorder_eq hf).symm

/-- The depth is the largest number of parent links that lead up to the top from a particle of the tree. -/
theorem Shows.isGreatest_height (hf : Linked f) (h : f.Shows parent t) :
    IsGreatest {n | ∃ x ∈ f.preorder t.id, f.ancestor? n x = some t.id} t.height := by
  constructor
  · obtain ⟨l, hl, hlen⟩ := h.exists_chain
    obtain ⟨x, hx⟩ := exists_ancestor_iff_isChain.mpr ⟨l, hl, hlen⟩
    refine ⟨x, ?_, hx⟩
    rw [h.preorder_eq hf, h.mem_ids_iff hf]
    exact exists_ancestor_iff.mp ⟨_, hx⟩
  · rintro n ⟨x, -, hx⟩
    obtain ⟨l, hl, rfl⟩ := exists_ancestor_iff_isChain.mp ⟨x, hx⟩
    exact h.length_le_height hf hl

/-- The walks of a reachable forest come to an end and agree with its parent links. The walk through a
subtree comes to each particle at most once, to those that parent links connect with its top, and to each
particle before the trees of its products in order. The depth is the largest number of parent links up to
the top. The climb ends at the only particle without a parent in whose subtree it has begun. -/
theorem Reachable.walks_agree (h : Reachable f) (hr : f.particle? r = some R)
    (hq : f.particle? q = some Q) :
    (Halts f.walkStep ([r], []) ([], f.preorder r) ∧ (f.preorder r).count q ≤ 1 ∧
      (q ∈ f.preorder r ↔ ∃ n, f.ancestor? n q = some r) ∧
      f.preorder r = r :: (f.products R).flatMap f.preorder) ∧
    (∃ n, f.depth r = .ok n ∧ Halts f.measureStep ([(r, 0)], 0) ([], n) ∧
      IsGreatest {n | ∃ x ∈ f.preorder r, f.ancestor? n x = some r} n) ∧
    ∃ root Root, f.rootOf q = .ok root ∧ Halts f.climbStep q root ∧
      f.particle? root = some Root ∧ Root.parent = none ∧ q ∈ f.preorder root ∧
      ∀ x X, f.particle? x = some X → X.parent = none → q ∈ f.preorder x → x = root := by
  have hf := h.linked
  obtain ⟨hmem, hnodup⟩ := hf.mem_preorder hr
  obtain ⟨root, Root, hroot, habove, hRoot, hnone⟩ := hf.rootOf_eq hq
  have horder := hf.preorder_eq hr
  obtain ⟨t, ht, rfl⟩ := hf.exists_tree hr
  refine ⟨⟨ht.walk_halts hf, List.nodup_iff_count_le_one.mp hnodup q, ?_, horder⟩,
    ⟨t.height, ht.depth_eq hf, ht.measure_halts, ht.isGreatest_height hf⟩,
    root, Root, hroot, climb_halts habove hRoot hnone, hRoot, hnone, ?_, ?_⟩
  · rw [hmem, exists_ancestor_iff]
  · exact ((hf.mem_preorder hRoot).1 q).mpr habove
  · intro x X hX hX' hq'
    have hx := ((hf.mem_preorder hX).1 q).mp hq'
    cases hroot.symm.trans ((hf.rootOf_eq_iff hq hX hX').mpr hx)
    rfl

/-- A particle with two decays, and the first product of the second one decays further. -/
def secondGoesOn : Forest :=
  Operation.addDecay ⟨2, 0⟩ [⟨4, 0⟩] ∅ |>.after <| Operation.addParticle "e" ∅ |>.after <|
    Operation.addDecay ⟨0, 0⟩ [⟨2, 0⟩, ⟨3, 0⟩] ∅ |>.after <|
      Operation.addDecay ⟨0, 0⟩ [⟨1, 0⟩] ∅ |>.after <|
      Operation.addParticle "d" ∅ |>.after <| Operation.addParticle "c" ∅ |>.after <|
        Operation.addParticle "b" ∅ |>.after <| Operation.addParticle "a" ∅ |>.after {}

theorem walks_agree_secondGoesOn :
    Halts secondGoesOn.walkStep ([⟨0, 0⟩], []) ([], [⟨0, 0⟩, ⟨1, 0⟩, ⟨2, 0⟩, ⟨4, 0⟩, ⟨3, 0⟩]) ∧
      Halts secondGoesOn.measureStep ([(⟨0, 0⟩, 0)], 0) ([], 2) ∧
      Halts secondGoesOn.climbStep ⟨4, 0⟩ ⟨0, 0⟩ := by
  have hreach : Reachable secondGoesOn :=
    .step _ (.step _ (.step _ (.step _ (.step _ (.step _ (.step _ (.step _ (.empty {})
      trivial) trivial) trivial) trivial) trivial) trivial) trivial) trivial
  have hdepth : secondGoesOn.depth ⟨0, 0⟩ = .ok 2 := rfl
  have hroot : secondGoesOn.rootOf ⟨4, 0⟩ = .ok ⟨0, 0⟩ := rfl
  obtain ⟨⟨hwalk, -⟩, ⟨n, hn, hmeasure, -⟩, root, -, hr, hclimb, -⟩ :=
    hreach.walks_agree (r := ⟨0, 0⟩) (q := ⟨4, 0⟩) rfl rfl
  cases hdepth.symm.trans hn
  cases hroot.symm.trans hr
  exact ⟨hwalk, hmeasure, hclimb⟩

end DecayForest.Forest
