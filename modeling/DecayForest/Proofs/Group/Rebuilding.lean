import DecayForest.Proofs.Group.Emission
import DecayForest.Proofs.Group.Numbering
/-!
# Forests that are built again

The statements of some particles with all that is below them make a group: they describe a forest
(`Portion.wellTyped`, `Portion.singleTargets`, `Portion.acyclic`, `Portion.shallow`). In the forest that
is built every particle is mirrored by the one that its unique name stands for (`Part.mirrored`), unless
it states a type other than its own.
-/

namespace DecayForest

namespace Building

variable {statements : List Statement} {table table' : Table} {defaults own : ParamList}
  {name type : String} {entry : String × ParamList}

/-! ### Statements without defaults -/

/-- Nothing is a default. -/
def Undefaulted (statements : List Statement) : Prop :=
  ∀ scope params, .defaults scope params ∉ statements

theorem Undefaulted.tail {s : Statement} (h : Undefaulted (s :: statements)) :
    Undefaulted statements :=
  fun scope params hmem => h scope params (List.mem_cons_of_mem s hmem)

/-- What is known of an identifier whose statements say no more stays. -/
theorem declaredFrom_of_some (hstatements : Undefaulted statements)
    (hall : ∀ params, .node name params ∈ statements →
      statedType params = .ok (some type) ∧ params.without ParamList.typeName = own)
    (htable : table name = some (type, own))
    (hrun : declaredFrom table ∅ statements = .ok table') : table' name = some (type, own) := by
  induction statements generalizing table with
  | nil => cases hrun; exact htable
  | cons s rest ih =>
    have hrest := fun params h => hall params (List.mem_cons_of_mem s h)
    match s with
    | .defaults scope params => exact absurd List.mem_cons_self (hstatements scope params)
    | .edge _ _ _ | .param _ _ => exact ih hstatements.tail hrest htable hrun
    | .node other params =>
      rw [declaredFrom] at hrun
      obtain ⟨stated, hstated, hrun⟩ := exists_of_bind_eq_ok hrun
      refine ih hstatements.tail hrest ?_ hrun
      by_cases hname : name = other
      · subst hname
        obtain ⟨htype, hwithout⟩ := hall params List.mem_cons_self
        rw [ParamList.empty_overlay, htype] at hstated
        cases hstated
        rw [Table.enter, Function.update_self, htable, ParamList.empty_overlay, hwithout]
        exact congrArg (fun ps => some (type, ps)) (ParamList.overlay_self own)
      · rw [Table.enter, Function.update_of_ne hname, htable]

/-- An identifier is known for what its statements say, if they all say the same. -/
theorem declaredFrom_of_mem (hstatements : Undefaulted statements)
    (hall : ∀ params, .node name params ∈ statements →
      statedType params = .ok (some type) ∧ params.without ParamList.typeName = own)
    (hmem : ∃ params, .node name params ∈ statements) (htable : table name = none)
    (hrun : declaredFrom table ∅ statements = .ok table') : table' name = some (type, own) := by
  obtain ⟨params, hmem⟩ := hmem
  induction statements generalizing table with
  | nil => cases hmem
  | cons s rest ih =>
    have hrest := fun params h => hall params (List.mem_cons_of_mem s h)
    match s with
    | .defaults scope params => exact absurd List.mem_cons_self (hstatements scope params)
    | .edge _ _ _ | .param _ _ =>
      exact ih hstatements.tail hrest htable hrun ((List.mem_cons.mp hmem).resolve_left nofun)
    | .node other stated =>
      rw [declaredFrom] at hrun
      obtain ⟨statedType, hstated, hrun⟩ := exists_of_bind_eq_ok hrun
      by_cases hname : name = other
      · subst hname
        obtain ⟨htype, hwithout⟩ := hall stated List.mem_cons_self
        rw [ParamList.empty_overlay, htype] at hstated
        cases hstated
        refine declaredFrom_of_some hstatements.tail hrest ?_ hrun
        rw [Table.enter, Function.update_self, htable, ParamList.empty_overlay, hwithout]
        rfl
      · refine ih hstatements.tail hrest ?_ hrun ?_
        · rw [Table.enter, Function.update_of_ne hname, htable]
        · refine (List.mem_cons.mp hmem).resolve_left fun h => ?_
          cases h
          exact hname rfl

/-- The decay that a statement describes. -/
def edge? : Statement → Option Edge
  | .edge source targets params => some ⟨source, targets, params⟩
  | _ => none

theorem edgesFrom_of_undefaulted (hstatements : Undefaulted statements) :
    edgesFrom ∅ statements = statements.filterMap edge? := by
  induction statements with
  | nil => rfl
  | cons s rest ih =>
    match s with
    | .defaults scope params => exact absurd List.mem_cons_self (hstatements scope params)
    | .node _ _ | .param _ _ => exact ih hstatements.tail
    | .edge source targets params =>
      rw [edgesFrom, ParamList.empty_overlay, ih hstatements.tail]
      rfl

theorem particleDefaults_of_undefaulted (hstatements : Undefaulted statements) :
    particleDefaults defaults statements = defaults := by
  induction statements with
  | nil => rfl
  | cons s rest ih =>
    match s with
    | .defaults scope params => exact absurd List.mem_cons_self (hstatements scope params)
    | .node _ _ | .edge _ _ _ | .param _ _ => exact ih hstatements.tail

end Building

namespace Forest

open Building Grammar

/-- Some particles of a forest with all that is below them, each listed once. A type that a particle
states is a text. -/
structure Portion (f : Forest) (part : List ParticleId) : Prop where
  linked : Linked f
  serials : DistinctSerials f
  nodup : part.Nodup
  live : ∀ {x}, x ∈ part → ∃ X, f.particle? x = some X
  down : ∀ {x y}, x ∈ part → f.ParentOf x y → y ∈ part
  typed : ∀ {x X v}, x ∈ part → f.particle? x = some X →
    X.params.value? ParamList.typeName = some v → ∃ type, v = .text type

/-- A portion of a forest in which no particle states a type. -/
structure Part (f : Forest) (part : List ParticleId) : Prop extends Portion f part where
  untyped : ∀ {x X}, x ∈ part → f.particle? x = some X →
    X.params.value? ParamList.typeName = none

/-- The statements of some particles, and of the parameters of a group. -/
def document (f : Forest) (part : List ParticleId) (params : ParamList) : List Statement :=
  part.flatMap f.statementsOf ++ params.entries.map fun e => .param e.1 e.2

variable {f : Forest} {part : List ParticleId} {params ps : ParamList} {x y : ParticleId}
  {X : Particle} {name a b : String} {targets : List String} {e : Edge}

theorem mem_edgesOf : e ∈ f.edgesOf x ↔ ∃ X d D, f.particle? x = some X ∧ d ∈ X.decays ∧
    f.decay? d = some D ∧ e = ⟨f.called x, D.products.map f.called, D.params⟩ := by
  unfold edgesOf
  rcases hx : f.particle? x with _ | X
  · exact iff_of_false nofun nofun
  · simp only [List.mem_filterMap, Option.map_eq_some_iff]
    constructor
    · rintro ⟨d, hd, D, hD, rfl⟩
      exact ⟨X, d, D, rfl, hd, hD, rfl⟩
    · rintro ⟨X', d, D, hX, hd, hD, rfl⟩
      cases hX
      exact ⟨d, hd, D, hD, rfl⟩

theorem node_mem_statementsOf : .node name ps ∈ f.statementsOf x ↔ ∃ X, f.particle? x = some X ∧
    name = f.called x ∧ ps = ParamList.ofEntries (Writing.typed X.type X.params) := by
  unfold statementsOf
  rcases hx : f.particle? x with _ | X
  · exact iff_of_false nofun nofun
  · simp

theorem edge_mem_statementsOf :
    .edge name targets ps ∈ f.statementsOf x ↔ ⟨name, targets, ps⟩ ∈ f.edgesOf x := by
  unfold statementsOf
  rcases hx : f.particle? x with _ | X
  · refine iff_of_false nofun fun hmem => ?_
    obtain ⟨X, d, D, hX, -⟩ := mem_edgesOf.mp hmem
    cases hx.symm.trans hX
  · simp only [List.mem_cons, List.mem_map, reduceCtorEq, false_or, Statement.edge.injEq]
    constructor
    · rintro ⟨⟨s, ts, ps'⟩, hmem, rfl, rfl, rfl⟩
      exact hmem
    · exact fun hmem => ⟨_, hmem, rfl, rfl, rfl⟩

theorem node_mem_document : .node name ps ∈ f.document part params ↔
    ∃ x ∈ part, ∃ X, f.particle? x = some X ∧ name = f.called x ∧
      ps = ParamList.ofEntries (Writing.typed X.type X.params) := by
  simp only [document, List.mem_append, List.mem_flatMap, List.mem_map, reduceCtorEq, and_false,
    exists_false, or_false, node_mem_statementsOf]

theorem edge_mem_document : .edge name targets ps ∈ f.document part params ↔
    ∃ x ∈ part, ⟨name, targets, ps⟩ ∈ f.edgesOf x := by
  simp only [document, List.mem_append, List.mem_flatMap, List.mem_map, reduceCtorEq, and_false,
    exists_false, or_false, edge_mem_statementsOf]

theorem undefaulted_document : Undefaulted (f.document part params) := by
  intro scope ps hmem
  rcases List.mem_append.mp hmem with hmem | hmem
  · obtain ⟨x, -, hmem⟩ := List.mem_flatMap.mp hmem
    unfold statementsOf at hmem
    rcases hx : f.particle? x with _ | X <;> rw [hx] at hmem
    · cases hmem
    · simp at hmem
  · simp at hmem

theorem targets_edgesOf (hx : f.particle? x = some X) :
    (f.edgesOf x).flatMap Edge.targets = (f.productsOf X.decays).map f.called := by
  rw [edgesOf, hx]
  show (X.decays.filterMap _).flatMap Edge.targets = _
  rw [productsOf]
  induction X.decays with
  | nil => rfl
  | cons d ds ih =>
    rcases hd : f.decay? d with _ | D
    · rw [List.filterMap_cons_none (by rw [hd]; rfl), List.flatMap_cons, hd, ih]
      rfl
    · rw [List.filterMap_cons_some (by rw [hd]; rfl), List.flatMap_cons, List.flatMap_cons, hd, ih,
        List.map_append]
      rfl

theorem filterMap_statementsOf (f : Forest) (x : ParticleId) :
    (f.statementsOf x).filterMap edge? = f.edgesOf x := by
  rcases hx : f.particle? x with _ | X
  · rw [statementsOf, edgesOf, hx]
    rfl
  · rw [statementsOf, hx]
    show ((f.edgesOf x).map _).filterMap edge? = _
    rw [List.filterMap_map]
    exact List.filterMap_some

/-- The decays of the document are those of its particles. -/
theorem edgesFrom_document : edgesFrom ∅ (f.document part params) = part.flatMap f.edgesOf := by
  have hparams : (params.entries.map fun e => Statement.param e.1 e.2).filterMap edge? = [] := by
    rw [List.filterMap_map]
    exact List.filterMap_eq_nil_iff.mpr fun _ _ => rfl
  rw [edgesFrom_of_undefaulted undefaulted_document, document, List.filterMap_append,
    List.filterMap_flatMap, hparams, List.append_nil]
  simp only [filterMap_statementsOf]

namespace Portion

variable (h : f.Portion part)
include h

theorem eq_of_called_eq (hx : x ∈ part) (hy : y ∈ part) (heq : f.called x = f.called y) : x = y := by
  obtain ⟨X, hX⟩ := h.live hx
  obtain ⟨Y, hY⟩ := h.live hy
  exact h.serials.eq_of_called_eq hX hY heq

/-- Each particle of the document has one node statement. -/
theorem flatMap_declared_document :
    (f.document part params).flatMap declared = part.map f.called := by
  have hparams : (params.entries.map fun e => Statement.param e.1 e.2).flatMap declared = [] := by
    rw [List.flatMap_map]
    exact List.flatMap_eq_nil_iff.mpr fun _ _ => rfl
  rw [document, List.flatMap_append, hparams, List.append_nil, List.flatMap_assoc,
    ← List.flatMap_pure_eq_map]
  refine List.flatMap_congr fun x hx => ?_
  obtain ⟨X, hX⟩ := h.live hx
  have hedges : ((f.edgesOf x).map fun e => Statement.edge e.source e.targets e.params).flatMap
      declared = [] := by
    rw [List.flatMap_map]
    exact List.flatMap_eq_nil_iff.mpr fun _ _ => rfl
  rw [statementsOf, hX, List.flatMap_cons, hedges]
  rfl

theorem nodup_called : (part.map f.called).Nodup :=
  h.nodup.map_on fun _ hx _ hy => h.eq_of_called_eq hx hy

/-- The decays of one particle are found by its name. -/
theorem filter_edges (hx : x ∈ part) :
    (part.flatMap f.edgesOf).filter (·.source = f.called x) = f.edgesOf x := by
  have hsource : ∀ y, ∀ e ∈ f.edgesOf y, e.source = f.called y := by
    intro y e he
    obtain ⟨X, d, D, -, -, -, rfl⟩ := mem_edgesOf.mp he
    rfl
  rw [List.filter_flatMap, flatMap_eq_of_unique h.nodup hx]
  · exact List.filter_eq_self.mpr fun e he => decide_eq_true (hsource x e he)
  · intro y hy hne
    refine List.filter_eq_nil_iff.mpr fun e he heq => hne (h.eq_of_called_eq hy hx ?_)
    exact (hsource y e he).symm.trans (of_decide_eq_true heq)

/-- What feeds what in the document is what is above what in the forest. -/
theorem feeds_iff : Feeds (f.document part params) a b ↔
    ∃ x y, x ∈ part ∧ f.ParentOf x y ∧ f.called x = a ∧ f.called y = b := by
  constructor
  · rintro ⟨targets, ps, hmem, hb⟩
    obtain ⟨x, hx, hmem⟩ := edge_mem_document.mp hmem
    obtain ⟨X, d, D, hX, hd, hD, heq⟩ := mem_edgesOf.mp hmem
    cases heq
    obtain ⟨y, hy, rfl⟩ := List.mem_map.mp hb
    obtain ⟨D', hD', hpar⟩ := h.linked.listed hX hd
    cases hD.symm.trans hD'
    exact ⟨x, y, hx, h.linked.product hD hpar hy, rfl, rfl⟩
  · rintro ⟨x, y, hx, hxy, rfl, rfl⟩
    obtain ⟨d, D, hD, hpar, hy⟩ := h.linked.origin hxy
    obtain ⟨X, hX, hd⟩ := h.linked.owner hD hpar
    refine ⟨_, _, edge_mem_document.mpr ⟨x, hx, mem_edgesOf.mpr ⟨X, d, D, hX, hd, hD, rfl⟩⟩, ?_⟩
    exact List.mem_map_of_mem hy

/-! ### The document is accepted -/

theorem wellTyped : WellTyped (f.document part params) := by
  intro before name ps after heq v hv
  have hmem : .node name ps ∈ f.document part params := heq ▸ List.mem_append_right _ List.mem_cons_self
  obtain ⟨x, hx, X, hX, -, rfl⟩ := node_mem_document.mp hmem
  have hbefore : Undefaulted before := fun scope ps hmem =>
    undefaulted_document scope ps (heq ▸ List.mem_append_left _ hmem)
  rw [particleDefaults_of_undefaulted hbefore] at hv
  rw [ParamList.empty_overlay, Writing.value?_ofEntries_typed] at hv
  obtain rfl := Option.some.inj hv
  rcases hstated : X.params.value? ParamList.typeName with _ | v
  · exact ⟨X.type, rfl⟩
  · exact h.typed hx hX hstated

theorem singleTargets : SingleTargets (f.document part params) := by
  have hproducts : ∀ {x X}, x ∈ part → f.particle? x = some X → ∀ y ∈ f.productsOf X.decays,
      f.ParentOf x y ∧ y ∈ part := by
    intro x X hx hX y hy
    have hxy := (h.linked.mem_productsOf_iff hX).mp hy
    exact ⟨hxy, h.down hx hxy⟩
  have htargets : (edgesFrom ∅ (f.document part params)).flatMap Edge.targets =
      (f.document part params).flatMap targets := targets_edgesFrom
  rw [SingleTargets, ← htargets, edgesFrom_document, List.flatMap_assoc]
  refine List.nodup_flatMap.mpr
    ⟨fun x hx => ?_, h.nodup.imp_of_mem fun {x x'} hx hx' hne a ha ha' => ?_⟩
  · obtain ⟨X, hX⟩ := h.live hx
    rw [targets_edgesOf hX]
    refine (h.linked.nodup_productsOf hX).map_on fun y hy y' hy' heq => ?_
    exact h.eq_of_called_eq (hproducts hx hX y hy).2 (hproducts hx hX y' hy').2 heq
  · obtain ⟨X, hX⟩ := h.live hx
    obtain ⟨X', hX'⟩ := h.live hx'
    replace ha : a ∈ (f.edgesOf x).flatMap Edge.targets := ha
    replace ha' : a ∈ (f.edgesOf x').flatMap Edge.targets := ha'
    rw [targets_edgesOf hX] at ha
    rw [targets_edgesOf hX'] at ha'
    obtain ⟨y, hy, rfl⟩ := List.mem_map.mp ha
    obtain ⟨y', hy', heq⟩ := List.mem_map.mp ha'
    obtain ⟨hxy, hyp⟩ := hproducts hx hX y hy
    obtain ⟨hxy', hyp'⟩ := hproducts hx' hX' y' hy'
    cases h.eq_of_called_eq hyp' hyp heq
    exact hne (hxy.unique hxy')

theorem acyclic : Acyclic (f.document part params) := by
  have hpath : ∀ {a b}, Relation.TransGen (Feeds (f.document part params)) a b →
      ∃ x y, x ∈ part ∧ y ∈ part ∧ f.called x = a ∧ f.called y = b ∧
        Relation.TransGen f.ParentOf x y := by
    intro a b hab
    induction hab with
    | single hab =>
      obtain ⟨x, y, hx, hxy, rfl, rfl⟩ := h.feeds_iff.mp hab
      exact ⟨x, y, hx, h.down hx hxy, rfl, rfl, .single hxy⟩
    | tail _ hbc ih =>
      obtain ⟨x, y, hx, hy, rfl, rfl, hxy⟩ := ih
      obtain ⟨y', z, hy', hyz, heq, rfl⟩ := h.feeds_iff.mp hbc
      cases h.eq_of_called_eq hy' hy heq
      exact ⟨x, z, hx, h.down hy hyz, rfl, rfl, hxy.tail hyz⟩
  intro a ha
  obtain ⟨x, y, hx, hy, rfl, heq, hxy⟩ := hpath ha
  cases h.eq_of_called_eq hy hx heq
  exact h.linked.acyclic x hxy

/-- A chain in the document is a way down in the forest. -/
theorem exists_way {chain : List String} (hchain : (a :: b :: chain).IsChain
    (Feeds (f.document part params))) : ∃ x ∈ part, ∃ xs : List ParticleId, f.called x = a ∧
      (x :: xs).IsChain f.ParentOf ∧ xs.length = chain.length + 1 := by
  induction chain generalizing a b with
  | nil =>
    obtain ⟨x, y, hx, hxy, rfl, rfl⟩ := h.feeds_iff.mp (List.isChain_cons_cons.mp hchain).1
    exact ⟨x, hx, [y], rfl, List.isChain_cons_cons.mpr ⟨hxy, .singleton y⟩, rfl⟩
  | cons c chain ih =>
    obtain ⟨hab, hrest⟩ := List.isChain_cons_cons.mp hchain
    obtain ⟨x, y, hx, hxy, rfl, rfl⟩ := h.feeds_iff.mp hab
    obtain ⟨y', hy', ys, heq, hys, hlen⟩ := ih hrest
    cases h.eq_of_called_eq (h.down hx hxy) hy' heq.symm
    refine ⟨x, hx, y :: ys, rfl, List.isChain_cons_cons.mpr ⟨hxy, hys⟩, ?_⟩
    rw [List.length_cons, hlen, List.length_cons]

theorem shallow (hlow : ∀ x ∈ part, ∀ xs : List ParticleId, (x :: xs).IsChain f.ParentOf →
    xs.length ≤ maxDepth) : Shallow (f.document part params) := by
  intro chain hchain
  rcases chain with _ | ⟨a, _ | ⟨b, chain⟩⟩
  · exact Nat.zero_le _
  · exact Nat.succ_le_succ (Nat.zero_le _)
  · obtain ⟨x, hx, xs, -, hxs, hlen⟩ := h.exists_way hchain
    have hle := hlow x hx xs hxs
    rw [List.length_cons, List.length_cons]
    omega

end Portion

/-! ### What is built -/

/-- The particle that is built for one of a document. -/
def standIn (f : Forest) (names : Names) (x : ParticleId) : ParticleId :=
  (names.lookup (f.called x)).getD ⟨0, 0⟩

/-- The serial number of a particle, in place of its handle. -/
def place (f : Forest) (x : ParticleId) : ParticleId :=
  ⟨(f.serial? (.inl x)).getD 0, 0⟩

theorem place_of_some (h : f.particle? x = some X) : f.place x = ⟨X.serial, 0⟩ := by
  rw [place, serial?, h]
  rfl

namespace Part

variable {g : Forest} {names : Names} {table : Table} {t : Tree} {parent : Option ParticleId}

/-- The node statement of a particle tells its type and its parameters. -/
theorem declared (h : f.Part part) (hx : x ∈ part) (hX : f.particle? x = some X)
    (htable : declaredFrom (fun _ => none) ∅ (f.document part params) = .ok table) :
    table (f.called x) = some (X.type, X.params) := by
  have huntyped := h.untyped hx hX
  refine declaredFrom_of_mem undefaulted_document (fun ps hmem => ?_) ?_ rfl htable
  · obtain ⟨y, hy, Y, hY, heq, rfl⟩ := node_mem_document.mp hmem
    cases h.eq_of_called_eq hx hy heq
    cases hX.symm.trans hY
    refine ⟨?_, Writing.without_ofEntries_typed huntyped X.type⟩
    rw [statedType, Writing.value?_ofEntries_typed, huntyped]
    rfl
  · exact ⟨_, node_mem_document.mpr ⟨x, hx, X, hX, rfl, rfl⟩⟩

variable (h : f.Part part)
  (htable : declaredFrom (fun _ => none) ∅ (f.document part params) = .ok table)
  (hb : Built g names (mentionedFrom table ∅ (f.document part params))
    (edgesFrom ∅ (f.document part params)))
include h htable hb

theorem lookup_called (hx : x ∈ part) : names.lookup (f.called x) = some (f.standIn names x) := by
  obtain ⟨X, hX⟩ := h.live hx
  obtain ⟨p, hp⟩ := hb.known (mentionedFrom_of_some (h.declared hx hX htable) ∅ _)
  rw [standIn, hp]
  rfl

/-- Every particle of the document is mirrored by the one that is built for it. -/
theorem mirrored (hx : x ∈ part) : ∃ X X', f.particle? x = some X ∧
    g.particle? (f.standIn names x) = some X' ∧ X'.type = X.type ∧ X'.params = X.params ∧
    List.Forall₂ (MirrorDecay f g (f.standIn names) (f.standIn names x)) X.decays X'.decays := by
  obtain ⟨X, hX⟩ := h.live hx
  obtain ⟨X', hX', hentry, hdecays⟩ := hb.entry (h.lookup_called htable hb hx)
  have hknown := mentionedFrom_of_some (h.declared hx hX htable) ∅ (f.document part params)
  obtain ⟨htype, hparams⟩ := Prod.mk.inj (Option.some.inj (hentry.symm.trans hknown))
  refine ⟨X, X', hX, hX', htype, hparams, ?_⟩
  rw [edgesFrom_document, h.filter_edges hx, edgesOf, hX] at hdecays
  have hlive : ∀ d ∈ X.decays, ∃ e, ((f.decay? d).map fun D =>
      (⟨f.called x, D.products.map f.called, D.params⟩ : Edge)) = some e := by
    intro d hd
    obtain ⟨D, hD, -⟩ := h.linked.listed hX hd
    exact ⟨_, by rw [hD]; rfl⟩
  refine (forall₂_of_filterMap hlive hdecays).imp fun d d' hbuilt => ?_
  obtain ⟨e, he, qs, serial, hqs, hd'⟩ := hbuilt
  obtain ⟨D, hD, rfl⟩ := Option.map_eq_some_iff.mp he
  refine ⟨D, serial, hD, ?_⟩
  rw [hd', eq_map_of_lookups hqs, List.map_map]
  rfl

/-- The tree of a particle is the tree of the one that is built for it, with other handles. -/
theorem exists_mirror (ht : f.Shows parent t) (hids : ∀ x ∈ t.ids, x ∈ part) :
    ∃ u parent', g.Shows parent' u ∧ u.id = f.standIn names t.id ∧
      u.relabel id = t.relabel (f.standIn names) := by
  obtain ⟨X, X', -, hX', -⟩ := h.mirrored htable hb (hids t.id t.id_mem_ids)
  obtain ⟨u, hu, hid⟩ := hb.linked.exists_tree hX'
  exact ⟨u, _, hu, hid, ht.mirror hu hid fun x hx => h.mirrored htable hb (hids x hx)⟩

end Part

/-- If particles are numbered in the order of the document, their serial numbers are their places in it. -/
theorem map_standIn {g : Forest} {names : Names} (hnodup : (part.map f.called).Nodup)
    (hnumbers : ∀ a ∈ part.map f.called, ∃ x X, names.lookup a = some x ∧ g.particle? x = some X ∧
      X.serial = (part.map f.called).idxOf a) :
    part.map (g.place ∘ f.standIn names) = (List.range part.length).map fun n => ⟨n, 0⟩ := by
  refine List.ext_getElem (by simp) fun n hn _ => ?_
  have hn' : n < (part.map f.called).length := by simpa using hn
  obtain ⟨x, X, hlookup, hX, hserial⟩ := hnumbers _ (List.getElem_mem hn')
  rw [hnodup.idxOf_getElem n hn'] at hserial
  rw [List.getElem_map] at hlookup
  simp only [List.getElem_map, List.getElem_range, Function.comp_apply, standIn, hlookup,
    Option.getD_some, place_of_some hX, hserial]

end Forest

end DecayForest
