import DecayForest.Forest.Expansion
import DecayForest.Proofs.Lists
/-!
# Functions on trees

Everything about a tree that the theory speaks of is an instance of one recursion, `Tree.fold`: the
particles and decays in it, its height, its shape (the tree without its handles), and the shapes of
its alternatives. What a recursion finds without looking at handles hangs on the shape alone
(`Tree.fold_eq_of_shape`).
-/

namespace DecayForest

mutual

/-- A tree without handles: what a document can say about it. -/
inductive Shape where
  | node (type : String) (params : ParamList) (decays : List Shape.Decay)

/-- A decay without handles. -/
inductive Shape.Decay where
  | mk (params : ParamList) (products : List Shape)

end

/-- The type of the particle on top. -/
def Shape.type : Shape → String
  | .node type _ _ => type

namespace Branch

/-- The decay on top. -/
def id : Branch → DecayId
  | mk id _ _ => id

/-- The parameters of the decay on top. -/
def params : Branch → ParamList
  | mk _ params _ => params

/-- The trees of the products. -/
def products : Branch → List Tree
  | mk _ _ products => products

end Branch

namespace Tree

/-- The type of the particle on top. -/
def type : Tree → String
  | node _ type _ _ => type

/-- The decays of the particle on top. -/
def branches : Tree → List Branch
  | node _ _ _ branches => branches

/-- What holds of a particle once it holds of all products below it holds of every tree. -/
@[elab_as_elim]
theorem induction {motive : Tree → Prop}
    (node : ∀ id type params branches,
      (∀ b ∈ branches, ∀ t ∈ b.products, motive t) → motive (.node id type params branches))
    (t : Tree) : motive t :=
  @Tree.rec motive (fun b => ∀ t ∈ b.products, motive t)
    (fun bs => ∀ b ∈ bs, ∀ t ∈ b.products, motive t) (fun ts => ∀ t ∈ ts, motive t)
    (fun id type params branches ih => node id type params branches ih)
    (fun _ _ _ ih => ih)
    nofun
    (fun _ _ hb hbs _ hc => by
      rcases List.mem_cons.mp hc with rfl | hc
      · exact hb
      · exact hbs _ hc)
    nofun
    (fun _ _ ht hts _ hu => by
      rcases List.mem_cons.mp hu with rfl | hu
      · exact ht
      · exact hts _ hu)
    t

variable {α : Type u}

/-- How a recursion treats a particle, given the handle, the parameters and the results of the
products of each of its decays. -/
abbrev Step (α : Type u) :=
  ParticleId → String → ParamList → List (DecayId × ParamList × List α) → α

mutual

/-- Recursion over a tree. -/
def fold (step : Step α) : Tree → α
  | .node id type params branches => step id type params (foldBranches step branches)

/-- Recursion over the decays of a particle. -/
def foldBranches (step : Step α) : List Branch → List (DecayId × ParamList × List α)
  | [] => []
  | .mk id params products :: branches =>
    (id, params, foldProducts step products) :: foldBranches step branches

/-- Recursion over the products of a decay. -/
def foldProducts (step : Step α) : List Tree → List α
  | [] => []
  | t :: ts => fold step t :: foldProducts step ts

end

theorem foldProducts_eq (step : Step α) (ts : List Tree) :
    foldProducts step ts = ts.map (fold step) := by
  induction ts with
  | nil => rfl
  | cons t ts ih => rw [foldProducts, ih, List.map_cons]

theorem fold_node (step : Step α) (id : ParticleId) (type : String) (params : ParamList)
    (branches : List Branch) :
    fold step (.node id type params branches) =
      step id type params
        (branches.map fun b => (b.id, b.params, b.products.map (fold step))) := by
  rw [fold]
  refine congrArg (step id type params) ?_
  induction branches with
  | nil => rfl
  | cons b branches ih =>
    rcases b with ⟨d, ps, ts⟩
    rw [foldBranches, ih, foldProducts_eq]
    rfl

/-- The particles of a tree, each before its products. -/
def ids : Tree → List ParticleId :=
  fold fun id _ _ below => id :: below.flatMap fun (_, _, inner) => inner.flatten

/-- The decays of a tree. -/
def decayIds : Tree → List DecayId :=
  fold fun _ _ _ below => below.map (·.1) ++ below.flatMap fun (_, _, inner) => inner.flatten

/-- The length of the longest chain of decays. -/
def height : Tree → Nat :=
  fold fun _ _ _ below =>
    (below.flatMap fun (_, _, inner) => inner).foldl (fun n h => max n (h + 1)) 0

/-- The tree without its handles. -/
def shape : Tree → Shape :=
  fold fun _ type params below =>
    .node type params (below.map fun (_, params, inner) => .mk params inner)

/-- The tree with other handles for its particles. What its decays are called is forgotten. -/
def relabel (c : ParticleId → ParticleId) : Tree → Tree :=
  fold fun id type params below =>
    .node (c id) type params (below.map fun (_, params, inner) => .mk ⟨0, 0⟩ params inner)

/-- The shapes of all alternatives: a leaf is its own; any other particle takes one of its decays
and, for each product, one alternative, where the choice for the last product varies fastest. -/
def alternatives : Tree → List Shape :=
  fold fun _ type params below =>
    match below with
    | [] => [.node type params []]
    | below => below.flatMap fun (_, ps, inner) =>
      (choices inner).map fun choice => .node type params [.mk ps choice]

/-- No particle has more than one decay. -/
def Resolved : Tree → Prop :=
  fold fun _ _ _ below => below.length ≤ 1 ∧ ∀ b ∈ below, ∀ resolved ∈ b.2.2, resolved

/-- All particles of a tree have a property that goes by type and parameters, and all decays one that
goes by parameters. -/
def All (particle : String → ParamList → Prop) (decay : ParamList → Prop) : Tree → Prop :=
  fold fun _ type params below =>
    particle type params ∧ ∀ b ∈ below, decay b.2.1 ∧ ∀ holds ∈ b.2.2, holds

/-- The trees of all products of the particle on top. -/
def children (t : Tree) : List Tree :=
  t.branches.flatMap Branch.products

variable {id : ParticleId} {type : String} {params : ParamList} {branches : List Branch}

@[simp] theorem id_node : (node id type params branches).id = id := rfl

@[simp] theorem type_node : (node id type params branches).type = type := rfl

@[simp] theorem branches_node : (node id type params branches).branches = branches := rfl

theorem children_node : (node id type params branches).children = branches.flatMap Branch.products :=
  rfl

theorem mem_children {t u : Tree} : u ∈ t.children ↔ ∃ b ∈ t.branches, u ∈ b.products :=
  List.mem_flatMap

theorem ids_eq (t : Tree) : t.ids = t.id :: t.children.flatMap ids := by
  rcases t with ⟨id, type, params, branches⟩
  rw [ids, fold_node, List.flatMap_map, children_node, List.flatMap_assoc]
  rfl

theorem decayIds_eq (t : Tree) :
    t.decayIds = t.branches.map Branch.id ++ t.children.flatMap decayIds := by
  rcases t with ⟨id, type, params, branches⟩
  rw [decayIds, fold_node, List.flatMap_map, List.map_map, children_node, List.flatMap_assoc]
  rfl

theorem height_eq (t : Tree) :
    t.height = t.children.foldl (fun n u => max n (u.height + 1)) 0 := by
  rcases t with ⟨id, type, params, branches⟩
  rw [height, fold_node, List.flatMap_map, children_node, ← List.map_flatMap, List.foldl_map]

theorem shape_node :
    (node id type params branches).shape =
      .node type params (branches.map fun b => .mk b.params (b.products.map shape)) := by
  rw [shape, fold_node, List.map_map]
  rfl

theorem relabel_node {c : ParticleId → ParticleId} :
    (node id type params branches).relabel c =
      .node (c id) type params (branches.map fun b => .mk ⟨0, 0⟩ b.params (b.products.map (relabel c))) := by
  rw [relabel, fold_node, List.map_map]
  rfl

theorem alternatives_leaf : (node id type params []).alternatives = [.node type params []] := by
  rw [alternatives, fold_node]
  rfl

theorem alternatives_node (h : branches ≠ []) :
    (node id type params branches).alternatives =
      branches.flatMap fun b => (choices (b.products.map alternatives)).map fun choice =>
        .node type params [.mk b.params choice] := by
  rw [alternatives, fold_node]
  cases branches with
  | nil => exact (h rfl).elim
  | cons b branches => exact List.flatMap_map _ _ (b :: branches)

theorem resolved_node :
    (node id type params branches).Resolved ↔
      branches.length ≤ 1 ∧ ∀ b ∈ branches, ∀ t ∈ b.products, t.Resolved := by
  rw [Resolved, fold_node, List.length_map, List.forall_mem_map]
  simp only [List.forall_mem_map]

theorem all_node {particle : String → ParamList → Prop} {decay : ParamList → Prop} :
    (node id type params branches).All particle decay ↔ particle type params ∧
      ∀ b ∈ branches, decay b.params ∧ ∀ t ∈ b.products, t.All particle decay := by
  rw [All, fold_node, List.forall_mem_map]
  simp only [List.forall_mem_map]

theorem id_mem_ids (t : Tree) : t.id ∈ t.ids := by
  rw [ids_eq]
  exact List.mem_cons_self

theorem branch_mem_decayIds {t : Tree} {b : Branch} (h : b ∈ t.branches) : b.id ∈ t.decayIds := by
  rw [decayIds_eq]
  exact List.mem_append_left _ (List.mem_map_of_mem h)

theorem ids_subset_of_mem_children {t u : Tree} (h : u ∈ t.children) : u.ids ⊆ t.ids := by
  rw [ids_eq t]
  exact fun _ hx => List.mem_cons_of_mem _ (List.mem_flatMap.mpr ⟨u, h, hx⟩)

theorem ids_subset_of_product {t u : Tree} {b : Branch} (hb : b ∈ t.branches) (hu : u ∈ b.products) :
    u.ids ⊆ t.ids :=
  ids_subset_of_mem_children (mem_children.mpr ⟨b, hb, hu⟩)

theorem decayIds_subset_of_mem_children {t u : Tree} (h : u ∈ t.children) :
    u.decayIds ⊆ t.decayIds := by
  rw [decayIds_eq t]
  exact fun _ hx => List.mem_append_right _ (List.mem_flatMap.mpr ⟨u, h, hx⟩)

private theorem le_foldl_max (ts : List Tree) (n m : Nat) :
    ts.foldl (fun n u => max n (u.height + 1)) n ≤ m ↔ n ≤ m ∧ ∀ u ∈ ts, u.height < m := by
  induction ts generalizing n with
  | nil => simp
  | cons t ts ih =>
    rw [List.foldl_cons, ih, List.forall_mem_cons, Nat.max_le]
    exact and_assoc

/-- A tree is no higher than `m` if all trees below it are lower. -/
theorem height_le_iff {t : Tree} {m : Nat} : t.height ≤ m ↔ ∀ u ∈ t.children, u.height < m := by
  rw [height_eq, le_foldl_max]
  exact and_iff_right (Nat.zero_le m)

theorem height_lt_of_mem_children {t u : Tree} (h : u ∈ t.children) : u.height < t.height :=
  height_le_iff.mp (Nat.le_refl _) u h

/-- What a recursion finds without looking at handles hangs on the shape alone. -/
theorem fold_eq_of_shape {β : Type} {step : Step β}
    (hstep : ∀ id id' type params below below', below.map Prod.snd = below'.map Prod.snd →
      step id type params below = step id' type params below')
    {t u : Tree} (h : t.shape = u.shape) : fold step t = fold step u := by
  induction t using Tree.induction generalizing u with
  | node id type params branches ih =>
    rcases u with ⟨id', type', params', branches'⟩
    rw [shape_node, shape_node] at h
    obtain ⟨rfl, rfl, hbranches⟩ := Shape.node.inj h
    rw [fold_node, fold_node]
    refine hstep _ _ _ _ _ _ ?_
    rw [List.map_map, List.map_map]
    refine forall₂_iff_map_eq.mp (forall₂_imp_of_mem (forall₂_iff_map_eq.mpr hbranches) fun b hb b' _ heq => ?_)
    obtain ⟨hparams, hproducts⟩ := Shape.Decay.mk.inj heq
    refine Prod.ext hparams (forall₂_iff_map_eq.mp ?_)
    exact forall₂_imp_of_mem (forall₂_iff_map_eq.mpr hproducts) fun v hv v' _ => ih b hb v hv

/-- The height of a tree hangs on its shape alone. -/
theorem height_eq_of_shape {t u : Tree} (h : t.shape = u.shape) : t.height = u.height := by
  refine fold_eq_of_shape (fun _ _ _ _ below below' hbelow => ?_) h
  have hinner : (below.flatMap fun b => b.2.2) = below'.flatMap fun b => b.2.2 := by
    have hflat := congrArg (List.flatMap Prod.snd) hbelow
    rwa [List.flatMap_map, List.flatMap_map] at hflat
  exact congrArg (List.foldl (fun n h => max n (h + 1)) 0) hinner

theorem all_iff_of_shape {particle : String → ParamList → Prop} {decay : ParamList → Prop}
    {t u : Tree} (h : t.shape = u.shape) : t.All particle decay ↔ u.All particle decay := by
  have hsnd : ∀ below : List (DecayId × ParamList × List Prop),
      (∀ b ∈ below, decay b.2.1 ∧ ∀ holds ∈ b.2.2, holds) ↔
        ∀ c ∈ below.map Prod.snd, decay c.1 ∧ ∀ holds ∈ c.2, holds :=
    fun below => by rw [List.forall_mem_map]
  refine iff_of_eq (fold_eq_of_shape (fun _ _ type params below below' hbelow => ?_) h)
  rw [hsnd below, hsnd below', hbelow]

/-! ### Other handles -/

variable {c c' : ParticleId → ParticleId} {t u : Tree}

theorem id_relabel (t : Tree) : (t.relabel c).id = c t.id := by
  rcases t with ⟨id, type, params, branches⟩
  rw [relabel_node]
  rfl

theorem children_relabel (t : Tree) : (t.relabel c).children = t.children.map (relabel c) := by
  rcases t with ⟨id, type, params, branches⟩
  rw [relabel_node, children_node, children_node, List.flatMap_map, List.map_flatMap]
  rfl

theorem shape_relabel (t : Tree) : (t.relabel c).shape = t.shape := by
  induction t using Tree.induction with
  | node id type params branches ih =>
    rw [relabel_node, shape_node, shape_node, List.map_map]
    refine congrArg (Shape.node type params) (List.map_congr_left fun b hb => ?_)
    refine congrArg (Shape.Decay.mk b.params) ?_
    show (b.products.map (relabel c)).map shape = _
    rw [List.map_map]
    exact List.map_congr_left fun v hv => ih b hb v hv

theorem relabel_relabel (t : Tree) : (t.relabel c).relabel c' = t.relabel (c' ∘ c) := by
  induction t using Tree.induction with
  | node id type params branches ih =>
    rw [relabel_node, relabel_node, relabel_node, List.map_map]
    refine congrArg (node (c' (c id)) type params) (List.map_congr_left fun b hb => ?_)
    refine congrArg (Branch.mk ⟨0, 0⟩ b.params) ?_
    show (b.products.map (relabel c)).map (relabel c') = _
    rw [List.map_map]
    exact List.map_congr_left fun v hv => ih b hb v hv

theorem ids_relabel (t : Tree) : (t.relabel c).ids = t.ids.map c := by
  induction t using Tree.induction with
  | node id type params branches ih =>
    rw [ids_eq, ids_eq (node id type params branches), id_relabel, children_relabel, List.flatMap_map,
      List.map_cons, List.map_flatMap]
    refine congrArg (c id :: ·) (congrArg List.flatten (List.map_congr_left fun v hv => ?_))
    obtain ⟨b, hb, hv⟩ := mem_children.mp hv
    exact ih b hb v hv

theorem decayIds_relabel (t : Tree) : (t.relabel c).decayIds = t.decayIds.map fun _ => ⟨0, 0⟩ := by
  induction t using Tree.induction with
  | node id type params branches ih =>
    rw [decayIds_eq, decayIds_eq (node id type params branches), children_relabel, relabel_node,
      List.flatMap_map, List.map_append, List.map_flatMap]
    refine congrArg₂ (· ++ ·) ?_ (congrArg List.flatten (List.map_congr_left fun v hv => ?_))
    · rw [branches_node, branches_node, List.map_map, List.map_map]
      rfl
    · obtain ⟨b, hb, hv⟩ := mem_children.mp hv
      exact ih b hb v hv

/-- Trees that differ in handles only have one shape. -/
theorem shape_eq_of_relabel (h : t.relabel c = u.relabel c') : t.shape = u.shape := by
  rw [← shape_relabel t, h, shape_relabel]

theorem map_ids_eq_of_relabel (h : t.relabel c = u.relabel c') : t.ids.map c = u.ids.map c' := by
  rw [← ids_relabel, h, ids_relabel]

/-- Trees of one shape are the same where all handles are. -/
theorem relabel_eq_of_shape (h : t.shape = u.shape) (x : ParticleId) :
    t.relabel (fun _ => x) = u.relabel fun _ => x := by
  refine fold_eq_of_shape (fun _ _ type params below below' hbelow => ?_) h
  have hinner := congrArg (List.map fun b : ParamList × List Tree => Branch.mk ⟨0, 0⟩ b.1 b.2) hbelow
  rw [List.map_map, List.map_map] at hinner
  exact congrArg (node x type params) hinner

theorem length_ids_of_shape (h : t.shape = u.shape) : t.ids.length = u.ids.length := by
  have hids := congrArg ids (relabel_eq_of_shape h ⟨0, 0⟩)
  rw [ids_relabel, ids_relabel] at hids
  simpa using congrArg List.length hids

theorem length_decayIds_of_shape (h : t.shape = u.shape) :
    t.decayIds.length = u.decayIds.length := by
  have hids := congrArg decayIds (relabel_eq_of_shape h ⟨0, 0⟩)
  rw [decayIds_relabel, decayIds_relabel] at hids
  simpa using congrArg List.length hids

/-- So many particles are in trees of the same shapes. -/
theorem length_flatMap_ids {ts us : List Tree} (h : us.map shape = ts.map shape) :
    (us.flatMap ids).length = (ts.flatMap ids).length := by
  rw [List.length_flatMap, List.length_flatMap]
  refine congrArg List.sum (forall₂_iff_map_eq.mp ?_)
  exact (forall₂_iff_map_eq.mpr h).imp fun _ _ => length_ids_of_shape

theorem length_flatMap_decayIds {ts us : List Tree} (h : us.map shape = ts.map shape) :
    (us.flatMap decayIds).length = (ts.flatMap decayIds).length := by
  rw [List.length_flatMap, List.length_flatMap]
  refine congrArg List.sum (forall₂_iff_map_eq.mp ?_)
  exact (forall₂_iff_map_eq.mpr h).imp fun _ _ => length_decayIds_of_shape

end Tree

end DecayForest
