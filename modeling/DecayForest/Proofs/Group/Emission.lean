import DecayForest.Proofs.Forest.Naming
import DecayForest.Proofs.Forest.Walking
import DecayForest.Proofs.Grammar.Documents
import DecayForest.Proofs.Group.Edges
/-!
# What is written for a particle

The text of a particle consists of the statements of all particles below it, each after those of its
products, and its own come last (`Shows.spelled`). That holds where all names and texts are seen as they
stand (`Forest.SeenAt`), above all where no comment opens in any of them (`Forest.PlainAt`).
-/

namespace DecayForest

namespace Tree

/-- The particles of a tree, each after its products. -/
def postorder : Tree → List ParticleId :=
  fold fun id _ _ below => (below.flatMap fun (_, _, inner) => inner.flatten) ++ [id]

theorem postorder_eq (t : Tree) : t.postorder = t.children.flatMap postorder ++ [t.id] := by
  rcases t with ⟨id, type, params, branches⟩
  rw [postorder, fold_node, List.flatMap_map, children_node, List.flatMap_assoc]
  rfl

theorem perm_postorder (t : Tree) : t.postorder.Perm t.ids := by
  induction t using Tree.induction with
  | node id type params branches ih =>
    rw [postorder_eq, ids_eq]
    refine (List.perm_append_singleton _ _).trans (.cons _ (List.Perm.flatMap_left _ fun u hu => ?_))
    obtain ⟨b, hb, hub⟩ := mem_children.mp hu
    exact ih b hb u hub

variable {t u : Tree} {ts us : List Tree} {c c' : ParticleId → ParticleId}

theorem postorder_relabel (t : Tree) : (t.relabel c).postorder = t.postorder.map c := by
  induction t using Tree.induction with
  | node id type params branches ih =>
    rw [postorder_eq, postorder_eq (node id type params branches), id_relabel, children_relabel,
      List.flatMap_map, List.map_append, List.map_flatMap]
    refine congrArg (· ++ [c id]) (congrArg List.flatten (List.map_congr_left fun v hv => ?_))
    obtain ⟨b, hb, hv⟩ := mem_children.mp hv
    exact ih b hb v hv

/-- Trees of one shape have as many particles. -/
theorem length_postorder_eq_of_shape (h : t.shape = u.shape) :
    t.postorder.length = u.postorder.length := by
  have hlen := congrArg (fun v => v.postorder.length) (relabel_eq_of_shape h ⟨0, 0⟩)
  simpa only [postorder_relabel, List.length_map] using hlen

theorem length_flatMap_postorder_eq_of_shape
    (h : List.Forall₂ (fun t u : Tree => t.shape = u.shape) ts us) :
    (ts.flatMap postorder).length = (us.flatMap postorder).length := by
  rw [List.length_flatMap, List.length_flatMap]
  exact congrArg List.sum (forall₂_iff_map_eq.mp (h.imp fun _ _ => length_postorder_eq_of_shape))

private theorem map_relabel_eq_of_forall
    (hall : ∀ t ∈ ts, ∀ u : Tree, t.shape = u.shape → t.postorder.map c = u.postorder.map c' →
      t.relabel c = u.relabel c')
    (hshape : List.Forall₂ (fun t u : Tree => t.shape = u.shape) ts us)
    (h : (ts.flatMap postorder).map c = (us.flatMap postorder).map c') :
    ts.map (relabel c) = us.map (relabel c') := by
  rw [List.map_flatMap, List.map_flatMap] at h
  have hparts := forall₂_of_flatMap_eq hshape (fun t u htu => by
    rw [List.length_map, List.length_map, length_postorder_eq_of_shape htu]) h
  exact forall₂_iff_map_eq.mp (forall₂_imp_of_mem hparts fun t ht u _ htu => hall t ht u htu.1 htu.2)

/-- A tree is told by its shape and its particles in postorder. -/
theorem relabel_eq_of_postorder (hshape : t.shape = u.shape)
    (h : t.postorder.map c = u.postorder.map c') : t.relabel c = u.relabel c' := by
  induction t using Tree.induction generalizing u with
  | node id type params branches ih =>
    rcases u with ⟨id', type', params', branches'⟩
    rw [shape_node, shape_node] at hshape
    obtain ⟨rfl, rfl, hbranches⟩ := Shape.node.inj hshape
    rw [postorder_eq, postorder_eq (node id' type params branches'), List.map_append, List.map_append]
      at h
    obtain ⟨hbelow, htop⟩ := List.append_inj' h rfl
    have hid : c id = c' id' := List.head_eq_of_cons_eq htop
    have hpairs := (forall₂_iff_map_eq.mpr hbranches).imp fun b b' heq => by
      obtain ⟨hparams, hproducts⟩ := Shape.Decay.mk.inj heq
      exact (⟨hparams, forall₂_iff_map_eq.mpr hproducts⟩ : b.params = b'.params ∧
        List.Forall₂ (fun t u : Tree => t.shape = u.shape) b.products b'.products)
    rw [children_node, children_node, List.flatMap_assoc, List.flatMap_assoc, List.map_flatMap,
      List.map_flatMap] at hbelow
    have hparts := forall₂_of_flatMap_eq hpairs (fun b b' hbb' => by
      rw [List.length_map, List.length_map, length_flatMap_postorder_eq_of_shape hbb'.2]) hbelow
    rw [relabel_node, relabel_node, hid]
    refine congrArg (node _ _ _) (forall₂_iff_map_eq.mp (forall₂_imp_of_mem hparts fun b hb b' _ h => ?_))
    obtain ⟨⟨hparams, hproducts⟩, hmap⟩ := h
    exact congrArg₂ (Branch.mk ⟨0, 0⟩) hparams
      (map_relabel_eq_of_forall (fun t ht _ => ih b hb t ht) hproducts hmap)

/-- So are several trees, one after the other. -/
theorem map_relabel_eq_of_postorder (hshape : List.Forall₂ (fun t u : Tree => t.shape = u.shape) ts us)
    (h : (ts.flatMap postorder).map c = (us.flatMap postorder).map c') :
    ts.map (relabel c) = us.map (relabel c') :=
  map_relabel_eq_of_forall (fun _ _ _ => relabel_eq_of_postorder) hshape h

end Tree

namespace Forest

open Building Grammar

/-- The unique name of a particle. -/
def called (f : Forest) (x : ParticleId) : String :=
  match f.particle? x with
  | some X => X.uniqueName
  | none => ""

/-- The decays of a particle, told by unique names. -/
def edgesOf (f : Forest) (x : ParticleId) : List Edge :=
  match f.particle? x with
  | some X => X.decays.filterMap fun d => (f.decay? d).map fun D =>
      ⟨f.called x, D.products.map f.called, D.params⟩
  | none => []

/-- The statements of a particle and its decays. -/
def statementsOf (f : Forest) (x : ParticleId) : List Statement :=
  match f.particle? x with
  | some X => .node (f.called x) (ParamList.ofEntries (Writing.typed X.type X.params)) ::
      (f.edgesOf x).map fun e => .edge e.source e.targets e.params
  | none => []

/-- A particle and its decays can be written so that they read back. -/
def PlainAt (f : Forest) (x : ParticleId) : Prop :=
  ∀ X, f.particle? x = some X →
    Commentless X.type ∧ X.params.value? ParamList.typeName = none ∧ X.params.Plain ∧
      ∀ d ∈ X.decays, ∀ D, f.decay? d = some D → D.params.Plain

/-- A particle and its decays are as a document may describe them, with all names and texts of one
sort. -/
def WordedAt (sort : String → Prop) (f : Forest) (x : ParticleId) : Prop :=
  ∀ X, f.particle? x = some X → sort X.type ∧ X.params.Worded sort ∧
    ∀ d ∈ X.decays, ∀ D, f.decay? d = some D → D.params.Worded sort

/-- All that is written for a particle and its decays is seen. Its name stands at the start of a line. -/
def SeenAt (f : Forest) (x : ParticleId) : Prop :=
  f.WordedAt Shown x ∧ ∀ X, f.particle? x = some X → isBlocked X.type = false

variable {f : Forest} {x : ParticleId} {X : Particle} {parent : Option ParticleId} {t : Tree}
  {b : Branch} {type text name : String} {params : ParamList}

theorem PlainAt.seen (h : f.PlainAt x) : f.SeenAt x := by
  have hshown : ∀ {ps : ParamList}, ps.Plain → ps.Worded Shown :=
    fun hps => (ParamList.plain_iff.mp hps).imp fun _ _ hw => hw.legible.shown
  refine ⟨fun X hX => ?_, fun X hX => (h X hX).1.legible.leading.2⟩
  obtain ⟨htype, -, hparams, hdecays⟩ := h X hX
  exact ⟨htype.legible.shown, hshown hparams, fun d hd D hD => hshown (hdecays d hd D hD)⟩

theorem called_of_some (h : f.particle? x = some X) : f.called x = X.uniqueName := by
  rw [called, h]

theorem Shows.edgesOf (h : f.Shows parent t) : f.edgesOf t.id = t.branches.map fun b =>
    ⟨f.called t.id, b.products.map fun u => f.called u.id, b.params⟩ := by
  obtain ⟨T, hT, -, hdecays, -⟩ := h.top
  rw [Forest.edgesOf, hT]
  show T.decays.filterMap _ = _
  rw [hdecays, List.filterMap_map]
  refine (List.filterMap_congr fun b hb => ?_).trans (congrFun List.filterMap_eq_map t.branches)
  obtain ⟨n, hB⟩ := h.branch hb
  rw [Function.comp_apply, hB, Option.map_some, List.map_map]
  rfl

/-- The statements of a tree are those of all trees below its top, and then those of the top. -/
theorem Shows.statementsOf_postorder {id : ParticleId} {branches : List Branch}
    (h : f.Shows parent (.node id type params branches)) :
    (Tree.node id type params branches).postorder.flatMap f.statementsOf =
      (branches.flatMap Branch.products).flatMap (fun u => u.postorder.flatMap f.statementsOf) ++
        ([.node (f.called id) (ParamList.ofEntries (Writing.typed type params))] ++
          branches.flatMap fun b =>
            [.edge (f.called id) (b.products.map fun u => f.called u.id) b.params]) := by
  obtain ⟨n, hid⟩ := h.particle?_node
  have hedges := h.edgesOf
  rw [Tree.id_node] at hedges
  rw [Tree.postorder_eq, Tree.children_node, List.flatMap_append, List.flatMap_assoc,
    List.flatMap_singleton, Tree.id_node, statementsOf, hid, hedges, List.map_map]
  refine congrArg (_ ++ _ :: ·) ?_
  exact (List.flatMap_pure_eq_map _ _).symm

/-! ### Names -/

theorem SeenAt.leading_called (h : f.SeenAt x) (hX : f.particle? x = some X) :
    Leading (f.called x) := by
  have htype : Leading X.type := ⟨(h.1 X hX).1, h.2 X hX⟩
  have htail : ("_" ++ toString X.serial).toList = '_' :: Nat.toDigits 10 X.serial := by
    rw [String.toList_append]
    exact congrArg ('_' :: ·) Nat.toList_repr
  rw [called_of_some hX, Particle.uniqueName, String.append_assoc]
  exact htype.append htail

theorem Shows.leading_called (h : f.Shows parent t) (hseen : ∀ x ∈ t.ids, f.SeenAt x)
    (hx : x ∈ t.ids) : Leading (f.called x) := by
  obtain ⟨X, hX⟩ := h.live hx
  exact (hseen x hx).leading_called hX

theorem DistinctSerials.eq_of_called_eq {y : ParticleId} {Y : Particle} (hf : DistinctSerials f)
    (hx : f.particle? x = some X) (hy : f.particle? y = some Y) (h : f.called x = f.called y) :
    x = y := by
  rw [called_of_some hx, called_of_some hy] at h
  exact hf.eq_of_serial_eq hx hy (Particle.serial_eq_of_uniqueName_eq h)

end Forest

/-! ### Texts -/

open Grammar

/-- A text consists of lines, one for each statement. -/
def Spelled (ss : List Statement) (text : String) : Prop :=
  ∃ texts, List.Forall₂ Stated ss texts ∧ text.toList = Document.lines texts

namespace Spelled

variable {st : Statement} {ss ss' : List Statement} {text text' : String}

theorem nil : Spelled [] "" := ⟨[], .nil, rfl⟩

theorem one (h : Stated st text) : Spelled [st] (text ++ ";\n") := by
  refine ⟨[text], .cons h .nil, ?_⟩
  rw [String.toList_append, Document.lines_cons]
  rfl

theorem append (h : Spelled ss text) (h' : Spelled ss' text') :
    Spelled (ss ++ ss') (text ++ text') := by
  obtain ⟨texts, hall, htext⟩ := h
  obtain ⟨texts', hall', htext'⟩ := h'
  refine ⟨texts ++ texts', List.rel_append hall hall', ?_⟩
  rw [String.toList_append, htext, htext']
  exact List.flatMap_append.symm

theorem join {α : Type} {φ : α → List Statement} {l : List α} {texts : List String}
    (h : List.Forall₂ (fun a text => Spelled (φ a) text) l texts) :
    Spelled (l.flatMap φ) (String.join texts) := by
  induction h with
  | nil => exact nil
  | cons ha _ ih =>
    rw [List.flatMap_cons, String.join_cons]
    exact ha.append ih

end Spelled

namespace Writing

variable {f : Forest} {x : ParticleId} {X : Particle} {name own type text : String} {b : Branch}
  {bs : List Branch} {us : List Tree}

theorem identifier_of_some (h : f.particle? x = some X) :
    identifier f x = Writing.name (f.called x) := by
  rw [identifier, Forest.uniqueName, Forest.particle_of_some h, Forest.called_of_some h]
  rfl

theorem identifier_eq_ok (h : identifier f x = .ok own) : written? (f.called x) = some own := by
  rcases hX : f.particle? x with _ | X
  · rw [identifier, Forest.uniqueName, Forest.particle_of_none hX] at h
    cases h
  · exact name_eq_ok ((identifier_of_some hX).symm.trans h)

/-- The line of a decay. -/
theorem spelled_branch (h : branch f own b = .ok text) (hown : written? name = some own)
    (hname : Leading name) (hproducts : ∀ u ∈ b.products, Shown (f.called u.id))
    (hparams : b.params.Worded Shown) :
    Spelled [.edge name (b.products.map fun u => f.called u.id) b.params] text := by
  rcases b with ⟨d, params, products⟩
  have hparams : params.Worded Shown := hparams
  rw [branch] at h
  obtain ⟨ws, hws, h⟩ := exists_of_bind_eq_ok h
  have hlist : ∃ list, Listed params list ∧ Unbroken list ∧
      text = own ++ " -> \x7b " ++ " ".intercalate ws ++ " \x7d" ++ list ++ ";\n" := by
    dsimp only at h
    split at h
    · next hempty =>
      cases h
      exact ⟨"", .inl ⟨rfl, ParamList.eq_empty_of_entries (List.isEmpty_iff.mp hempty)⟩, by decide, rfl⟩
    · obtain ⟨list, hlist, h⟩ := exists_of_bind_eq_ok h
      cases h
      rcases hentries : entries params.entries with e | texts <;> rw [hentries] at hlist <;> cases hlist
      refine ⟨_, .inr ⟨texts, rfl, fun rest => ?_⟩,
        unbroken_bracketed (unbroken_entries params.entries hentries), rfl⟩
      rw [paramList_written hparams.entries hparams.depth hentries,
        ParamList.ofEntries_entries]
  obtain ⟨list, hlist, hline, rfl⟩ := hlist
  refine Spelled.one (stated_edge hown hname ?_ hlist hline)
  rw [List.forall₂_map_left_iff]
  refine forall₂_imp_of_mem (forall₂_of_mapM_eq_ok hws) fun u hu w _ hw => ?_
  exact ⟨identifier_eq_ok hw, hproducts u hu⟩

theorem trees_eq (f : Forest) (us : List Tree) : trees f us = String.join <$> us.mapM (tree f) := by
  induction us with
  | nil => rfl
  | cons u us ih =>
    rw [trees, ih, List.mapM_cons]
    rcases tree f u with e | first
    · rfl
    · rcases us.mapM (tree f) with e | texts
      · rfl
      · exact congrArg Except.ok String.join_cons.symm

/-- Before a particle stand the texts of all products of its decays. -/
theorem belowAll_eq (f : Forest) (bs : List Branch) :
    belowAll f bs = String.join <$> (bs.flatMap Branch.products).mapM (tree f) := by
  induction bs with
  | nil => rfl
  | cons b bs ih =>
    rcases b with ⟨d, params, products⟩
    have hproducts : (Branch.mk d params products).products = products := rfl
    rw [belowAll, below, trees_eq, ih, List.flatMap_cons, hproducts, List.mapM_append]
    rcases products.mapM (tree f) with e | texts
    · rfl
    · rcases (bs.flatMap Branch.products).mapM (tree f) with e | texts'
      · rfl
      · exact congrArg Except.ok String.join_append.symm

theorem belowAll_eq_ok (h : belowAll f bs = .ok text) :
    ∃ texts, List.Forall₂ (fun u text => tree f u = .ok text) (bs.flatMap Branch.products) texts ∧
      text = String.join texts := by
  rw [belowAll_eq] at h
  rcases htexts : (bs.flatMap Branch.products).mapM (tree f) with e | texts <;> rw [htexts] at h <;> cases h
  exact ⟨texts, forall₂_of_mapM_eq_ok htexts, rfl⟩

/-- The parameters of a particle without a type of its own, its type in front. -/
theorem typed_eq {params : ParamList} (h : params.value? ParamList.typeName = none) (type : String) :
    typed type params = (ParamList.typeName, .text type) :: params.entries := by
  have hne : ∀ e ∈ params.entries, e.1 != ParamList.typeName := by
    intro e he
    exact bne_iff_ne.mpr (bne_iff_ne.mp (List.lookup_eq_none_iff.mp h e he)).symm
  rw [typed, h]
  exact congrArg _ (List.filter_eq_self.mpr hne)

/-- The type is read back from among the parameters: the one that they state, or else that of the
particle. -/
theorem value?_ofEntries_typed (type : String) (params : ParamList) :
    (ParamList.ofEntries (typed type params)).value? ParamList.typeName =
      some ((params.value? ParamList.typeName).getD (.text type)) := by
  rw [typed, ParamList.ofEntries_cons, ParamList.value?_overlay, ParamList.value?_without,
    if_pos rfl, Option.none_or, ParamList.value?_put_self]

/-- Entries with the type in front are of the sort that they are of without it. -/
theorem worded_typed {sort : String → Prop} {params : ParamList} (hkey : sort ParamList.typeName)
    (htype : sort type) (hparams : params.Worded sort) :
    Value.WordedEntries sort (typed type params) ∧
      Value.depthEntries (typed type params) < maxListDepth := by
  have hall := ParamList.worded_iff.mp hparams
  have hvalue : ∀ v, v = (params.value? ParamList.typeName).getD (.text type) →
      v.Worded sort ∧ v.depth < maxListDepth := by
    rintro _ rfl
    rcases hstated : params.value? ParamList.typeName with _ | v
    · exact ⟨htype, show 0 < maxListDepth by decide⟩
    · obtain ⟨⟨-, hv⟩, hdepth⟩ := hall _ (ParamList.mem_of_value? hstated)
      exact ⟨hv, hdepth⟩
  rw [Value.wordedEntries_iff, Value.depthEntries_lt_iff (by decide), ← forall₂_and, typed,
    List.forall_mem_cons]
  obtain ⟨hv, hdepth⟩ := hvalue _ rfl
  exact ⟨⟨⟨hkey, hv⟩, hdepth⟩, fun e he => hall e (List.mem_filter.mp he).1⟩

/-- The line of a particle. -/
theorem spelled_node {params : ParamList} {list : List String} (htype : Shown type)
    (hparams : params.Worded Shown) (hown : written? name = some own) (hname : Leading name)
    (hlist : entries (typed type params) = .ok list) :
    Spelled [.node name (ParamList.ofEntries (typed type params))]
      (own ++ bracketed list ++ ";\n") := by
  refine Spelled.one (stated_node hown hname (unbroken_entries _ hlist) fun rest => ?_)
  have hkey : Shown ParamList.typeName := by decide
  obtain ⟨hentries, hdepth⟩ := worded_typed hkey htype hparams
  exact paramList_written hentries hdepth hlist rest

/-- What is left besides the type are the parameters. -/
theorem without_ofEntries_typed {params : ParamList}
    (h : params.value? ParamList.typeName = none) (type : String) :
    (ParamList.ofEntries (typed type params)).without ParamList.typeName = params := by
  refine ParamList.ext_value? fun name => ?_
  rw [ParamList.value?_without, typed_eq h]
  split
  · next hname => rw [hname, h]
  · next hname =>
    rw [ParamList.ofEntries_cons, ParamList.value?_overlay, ParamList.value?_put_of_ne hname]
    exact Option.or_none

end Writing

namespace Forest

variable {f : Forest} {parent : Option ParticleId} {t : Tree} {text : String}

/-- The text of a particle is that of its tree. -/
theorem Linked.exists_tree_of_written (hf : Linked f) {r : ParticleId} {R : Particle}
    (hR : f.particle? r = some R) (h : f.written r = .ok text) :
    ∃ t, f.Shows R.parent t ∧ t.id = r ∧ t.height ≤ maxDepth ∧ f.tree r = .ok t ∧
      Writing.tree f t = .ok text := by
  obtain ⟨t, ht, rfl⟩ := hf.exists_tree hR
  obtain ⟨t', htree, hw⟩ := exists_of_bind_eq_ok h
  have hread := ht.tree_eq hf
  split at hread
  · cases hread.symm.trans htree
  · next hheight =>
    cases hread.symm.trans htree
    exact ⟨t, ht, rfl, Nat.le_of_not_lt hheight, hread, hw⟩

/-- The text of a tree consists of the statements of its particles. -/
theorem Shows.spelled (h : f.Shows parent t) (hseen : ∀ x ∈ t.ids, f.SeenAt x)
    (hw : Writing.tree f t = .ok text) : Spelled (t.postorder.flatMap f.statementsOf) text := by
  induction t using Tree.induction generalizing parent text with
  | node id type params branches ih =>
    obtain ⟨n, hid⟩ := h.particle?_node
    obtain ⟨htype, hparams, hdecays⟩ := (hseen id (Tree.id_mem_ids _)).1 _ hid
    have hname := h.leading_called hseen (Tree.id_mem_ids _)
    rw [Writing.tree] at hw
    obtain ⟨below, hbelow, hw⟩ := exists_of_bind_eq_ok hw
    obtain ⟨own, hown, hw⟩ := exists_of_bind_eq_ok hw
    obtain ⟨list, hlist, hw⟩ := exists_of_bind_eq_ok hw
    obtain ⟨decays, hdecayTexts, hw⟩ := exists_of_bind_eq_ok hw
    cases hw
    obtain ⟨texts, hall, rfl⟩ := Writing.belowAll_eq_ok hbelow
    have hchildren : Spelled ((branches.flatMap Branch.products).flatMap
        fun u => u.postorder.flatMap f.statementsOf) (String.join texts) := by
      refine Spelled.join (forall₂_imp_of_mem hall fun u hu text _ htext => ?_)
      obtain ⟨b, hb, hub⟩ := List.mem_flatMap.mp hu
      exact ih b hb u hub (h.product hb hub)
        (fun x hx => hseen x (Tree.ids_subset_of_product hb hub hx)) htext
    have hnode := Writing.spelled_node htype hparams (Writing.identifier_eq_ok hown) hname hlist
    have hedges : Spelled (branches.flatMap fun b =>
        [.edge (f.called id) (b.products.map fun u => f.called u.id) b.params])
        (String.join decays) := by
      refine Spelled.join (forall₂_imp_of_mem (forall₂_of_mapM_eq_ok hdecayTexts)
        fun b hb text _ htext => ?_)
      refine Writing.spelled_branch htext (Writing.identifier_eq_ok hown) hname (fun u hu => ?_) ?_
      · exact (h.leading_called hseen (Tree.ids_subset_of_product hb hu u.id_mem_ids)).1
      · obtain ⟨m, hB⟩ := h.branch hb
        exact hdecays b.id (List.mem_map_of_mem hb) _ hB
    have happend := hchildren.append (hnode.append hedges)
    rw [h.statementsOf_postorder]
    simp only [String.append_assoc] at happend ⊢
    exact happend

end Forest

end DecayForest
