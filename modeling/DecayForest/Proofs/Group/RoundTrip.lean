import DecayForest.Proofs.Forest.Reachability
import DecayForest.Proofs.Group.Rebuilding
/-!
# Groups read back from what is written

The text that a plain group is written as is a document, and the group that is read from it has the
same parameters and, root by root, trees of the same shape (`Group.written_reads`). The text of one
particle reads as a group with that particle as its only root.
-/

namespace DecayForest

namespace Forest

open Building Grammar

variable {f g : Forest} {part : List ParticleId} {params : ParamList} {x y : ParticleId}
  {names : Names} {table : Table} {t : Tree} {ts : List Tree} {parent : Option ParticleId}

/-! ### Roots -/

theorem mentioned_statementsOf {a : String} (ha : a ∈ (f.statementsOf x).flatMap mentioned) :
    a = f.called x ∨ ∃ e ∈ f.edgesOf x, a ∈ e.targets := by
  unfold statementsOf at ha
  rcases hx : f.particle? x with _ | X <;> rw [hx] at ha
  · cases ha
  · rw [List.flatMap_cons, List.flatMap_map] at ha
    rcases List.mem_append.mp ha with ha | ha
    · exact .inl (List.mem_singleton.mp ha)
    · obtain ⟨e, he, ha⟩ := List.mem_flatMap.mp ha
      rcases List.mem_cons.mp ha with rfl | ha
      · obtain ⟨X, d, D, -, -, -, rfl⟩ := mem_edgesOf.mp he
        exact .inl rfl
      · exact .inr ⟨e, he, ha⟩

/-- What the statements of a tree mention are names of its particles. -/
theorem Shows.mentioned (hf : Linked f) (ht : f.Shows parent t) {a : String}
    (ha : a ∈ (t.postorder.flatMap f.statementsOf).flatMap Building.mentioned) :
    ∃ y ∈ t.ids, a = f.called y := by
  rw [List.flatMap_assoc] at ha
  obtain ⟨x, hx, ha⟩ := List.mem_flatMap.mp ha
  have hx := t.perm_postorder.mem_iff.mp hx
  rcases mentioned_statementsOf ha with rfl | ⟨e, he, ha⟩
  · exact ⟨x, hx, rfl⟩
  · obtain ⟨X, d, D, hX, hd, hD, rfl⟩ := mem_edgesOf.mp he
    obtain ⟨y, hy, rfl⟩ := List.mem_map.mp ha
    obtain ⟨D', hD', hpar⟩ := hf.listed hX hd
    cases hD.symm.trans hD'
    exact ⟨y, ht.mem_ids_of_parentOf hf hx (hf.product hD hpar hy), rfl⟩

namespace Part

variable (h : f.Part part)
  (htable : declaredFrom (fun _ => none) ∅ (f.document part params) = .ok table)
  (hb : Built g names (mentionedFrom table ∅ (f.document part params))
    (edgesFrom ∅ (f.document part params)))
include h htable hb

theorem eq_of_standIn_eq (hx : x ∈ part) (hy : y ∈ part)
    (heq : f.standIn names x = f.standIn names y) : x = y := by
  have hlookup := h.lookup_called htable hb hx
  rw [heq] at hlookup
  exact h.eq_of_called_eq hx hy (hb.injective hlookup (h.lookup_called htable hb hy))

/-- What no particle of the document is above has no parent where it is built. -/
theorem parentless (hx : x ∈ part) (htop : ∀ y ∈ part, ¬ f.ParentOf y x) (p : ParticleId) :
    ¬ g.ParentOf p (f.standIn names x) := by
  intro hp
  obtain ⟨a, b, -, hbx, hab⟩ := hb.parentOf_iff.mp hp
  cases hb.injective hbx (h.lookup_called htable hb hx)
  obtain ⟨y, z, hy, hyz, -, hz⟩ := h.feeds_iff.mp (leads_edgesFrom.mp hab)
  cases h.eq_of_called_eq (h.down hy hyz) hx hz
  exact htop y hy hyz

/-- All that is built for a tree has the same root. -/
theorem rootOf_standIn (ht : f.Shows parent t) (hids : ∀ x ∈ t.ids, x ∈ part)
    (htop : ∀ y ∈ part, ¬ f.ParentOf y t.id) (hx : x ∈ t.ids) :
    g.rootOf (f.standIn names x) = .ok (f.standIn names t.id) := by
  obtain ⟨u, parent', hu, hid, hrelabel⟩ := h.exists_mirror htable hb ht hids
  have huids := Tree.map_ids_eq_of_relabel hrelabel
  rw [List.map_id] at huids
  have hmem : f.standIn names x ∈ u.ids := huids ▸ List.mem_map_of_mem hx
  obtain ⟨X, hX⟩ := hu.live hmem
  obtain ⟨R, hR, -⟩ := hu.top
  have htop' := h.parentless htable hb (hids t.id t.id_mem_ids) htop
  rw [← hid] at htop' ⊢
  exact (hb.linked.rootOf_eq_iff hX hR ((parent_eq_none_iff hR).mpr htop')).mpr (hu.above hmem)

/-- The roots of what is built are those of the trees in the document, in order. -/
theorem roots_document (hpart : part = ts.flatMap Tree.postorder)
    (hts : ∀ t ∈ ts, ∃ parent, f.Shows parent t)
    (htop : ∀ t ∈ ts, ∀ x ∈ part, ¬ f.ParentOf x t.id) :
    roots g names (f.document part params) = .ok (ts.map fun t => f.standIn names t.id) := by
  have hids : ∀ t ∈ ts, ∀ x ∈ t.ids, x ∈ part := fun t ht x hx =>
    hpart ▸ List.mem_flatMap.mpr ⟨t, ht, t.perm_postorder.mem_iff.mpr hx⟩
  let block (t : Tree) : List ParticleId :=
    ((t.postorder.flatMap f.statementsOf).flatMap mentioned).filterMap fun a => names.lookup a
  have hblock : ∀ t ∈ ts, ∀ p ∈ block t, g.rootOf p = .ok (f.standIn names t.id) := by
    intro t ht p hp
    obtain ⟨parent, hshows⟩ := hts t ht
    obtain ⟨a, ha, hlookup⟩ := List.mem_filterMap.mp hp
    obtain ⟨x, hx, rfl⟩ := hshows.mentioned h.linked ha
    cases (h.lookup_called htable hb (hids t ht x hx)).symm.trans hlookup
    exact h.rootOf_standIn htable hb hshows (hids t ht) (htop t ht) hx
  have hne : ∀ t ∈ ts, block t ≠ [] := by
    intro t ht hnil
    obtain ⟨parent, hshows⟩ := hts t ht
    obtain ⟨T, hT, -⟩ := hshows.top
    have hlookup := h.lookup_called htable hb (hids t ht t.id t.id_mem_ids)
    have hmem : f.called t.id ∈ (t.postorder.flatMap f.statementsOf).flatMap mentioned := by
      have hnode := node_mem_statementsOf.mpr ⟨T, hT, rfl, rfl⟩
      refine List.mem_flatMap.mpr ⟨_, List.mem_flatMap.mpr ⟨t.id, ?_, hnode⟩, List.mem_cons_self⟩
      exact t.perm_postorder.mem_iff.mpr t.id_mem_ids
    exact List.ne_nil_of_mem (List.mem_filterMap.mpr ⟨_, hmem, hlookup⟩) hnil
  have hnodup : (ts.map fun t => f.standIn names t.id).Nodup := by
    have hpairs := (List.nodup_flatMap.mp (hpart ▸ h.nodup)).2
    refine List.pairwise_map.mpr (hpairs.imp_of_mem fun {t u} ht hu hdisjoint heq => ?_)
    have hid := h.eq_of_standIn_eq htable hb (hids t ht _ t.id_mem_ids) (hids u hu _ u.id_mem_ids) heq
    exact hdisjoint (t.perm_postorder.mem_iff.mpr t.id_mem_ids)
      (u.perm_postorder.mem_iff.mpr (hid ▸ u.id_mem_ids))
  have hmentions : ((f.document part params).flatMap mentioned).filterMap
      (fun a => names.lookup a) = ts.flatMap block := by
    have hparams : (params.entries.map fun e => Statement.param e.1 e.2).flatMap mentioned = [] := by
      rw [List.flatMap_map]
      exact List.flatMap_eq_nil_iff.mpr fun _ _ => rfl
    rw [document, List.flatMap_append, hparams, List.append_nil, hpart]
    simp only [block, List.flatMap_assoc, List.filterMap_flatMap]
  unfold roots
  show (((f.document part params).flatMap mentioned).filterMap _).mapM g.rootOf >>= _ = _
  rw [hmentions, mapM_blocks hblock]
  exact congrArg Except.ok (eraseDups_blocks hne hnodup)

end Part

/-! ### Trees -/

/-- A tree that is shown without a parent has a root on top. -/
theorem Shows.parentless (ht : f.Shows none t) (x : ParticleId) : ¬ f.ParentOf x t.id := by
  obtain ⟨T, hT, hnone, -⟩ := ht.top
  exact (parent_eq_none_iff hT).mp hnone x

/-- A root is above another only if it is that root. -/
theorem pairwise_apart {roots : List ParticleId} (hroots : roots.Nodup)
    (hts : List.Forall₂ (fun r t => f.Shows none t ∧ t.id = r) roots ts) :
    ts.Pairwise fun t u => ¬ f.Above t.id u.id ∧ ¬ f.Above u.id t.id := by
  have hids : ts.map Tree.id = roots := by
    have hmap := forall₂_iff_map_eq.mp (hts.imp fun r t h => (h.2.symm : id r = t.id))
    rw [← hmap, List.map_id]
  have htop : ∀ t ∈ ts, ∀ x, ¬ f.ParentOf x t.id := by
    intro t ht
    obtain ⟨r, -, hshows, -⟩ := exists_left_of_forall₂ hts ht
    exact hshows.parentless
  refine (List.pairwise_map.mp (hids ▸ hroots)).imp_of_mem fun ht hu hne => ?_
  exact ⟨fun h => hne (h.eq_of_root (htop _ hu)), fun h => hne (h.eq_of_root (htop _ ht)).symm⟩

/-- Trees of which none stands within another make a portion of a forest, if the types that particles
in them state are texts. -/
theorem portion_of_trees (hf : Linked f) (hserials : DistinctSerials f)
    (hts : ∀ t ∈ ts, ∃ parent, f.Shows parent t)
    (hapart : ts.Pairwise fun t u => ¬ f.Above t.id u.id ∧ ¬ f.Above u.id t.id)
    (htyped : ∀ t ∈ ts, ∀ x X v, f.Above t.id x → f.particle? x = some X →
      X.params.value? ParamList.typeName = some v → ∃ type, v = .text type) :
    f.Portion (ts.flatMap Tree.postorder) := by
  have hmem : ∀ {x}, x ∈ ts.flatMap Tree.postorder → ∃ t ∈ ts, ∃ parent, f.Shows parent t ∧
      x ∈ t.ids := by
    intro x hx
    obtain ⟨t, ht, hx⟩ := List.mem_flatMap.mp hx
    obtain ⟨parent, hshows⟩ := hts t ht
    exact ⟨t, ht, parent, hshows, t.perm_postorder.mem_iff.mp hx⟩
  refine ⟨hf, hserials, List.nodup_flatMap.mpr ⟨fun t ht => ?_, hapart.imp_of_mem ?_⟩, fun hx => ?_,
    fun hx hxy => ?_, fun hx hX hv => ?_⟩
  · obtain ⟨parent, hshows⟩ := hts t ht
    exact t.perm_postorder.nodup_iff.mpr (hshows.nodup_ids hf)
  · intro t u ht hu hne x hx hx'
    obtain ⟨parent, hshows⟩ := hts t ht
    obtain ⟨parent', hshows'⟩ := hts u hu
    exact hshows.disjoint hshows' hne.1 hne.2 (t.perm_postorder.mem_iff.mp hx)
      (u.perm_postorder.mem_iff.mp hx')
  · obtain ⟨t, -, parent, hshows, hx⟩ := hmem hx
    exact hshows.live hx
  · obtain ⟨t, ht, parent, hshows, hx⟩ := hmem hx
    refine List.mem_flatMap.mpr ⟨t, ht, t.perm_postorder.mem_iff.mpr ?_⟩
    exact hshows.mem_ids_of_parentOf hf hx hxy
  · obtain ⟨t, ht, parent, hshows, hx⟩ := hmem hx
    exact htyped t ht _ _ _ (hshows.above hx) hX hv

theorem part_of_trees (hf : Linked f) (hserials : DistinctSerials f)
    (hts : ∀ t ∈ ts, ∃ parent, f.Shows parent t)
    (hapart : ts.Pairwise fun t u => ¬ f.Above t.id u.id ∧ ¬ f.Above u.id t.id)
    (hplain : ∀ t ∈ ts, ∀ x, f.Above t.id x → f.PlainAt x) :
    f.Part (ts.flatMap Tree.postorder) := by
  refine ⟨portion_of_trees hf hserials hts hapart fun t ht x X v hx hX hv => ?_,
    fun {x X} hx hX => ?_⟩
  · cases (hplain t ht x hx X hX).2.1.symm.trans hv
  · obtain ⟨t, ht, hx⟩ := List.mem_flatMap.mp hx
    obtain ⟨parent, hshows⟩ := hts t ht
    exact (hplain t ht x (hshows.above (t.perm_postorder.mem_iff.mp hx)) X hX).2.1

theorem groupParams_document : groupParams (f.document part params) = params := by
  unfold groupParams document
  rw [List.filterMap_append, List.filterMap_flatMap, List.filterMap_map,
    List.flatMap_eq_nil_iff.mpr fun x _ => List.filterMap_eq_nil_iff.mpr fun s hs => ?_]
  · exact (congrArg ParamList.ofEntries List.filterMap_some).trans (ParamList.ofEntries_entries params)
  · unfold statementsOf at hs
    rcases hx : f.particle? x with _ | X <;> rw [hx] at hs
    · cases hs
    · rcases List.mem_cons.mp hs with rfl | hs
      · rfl
      · obtain ⟨e, -, rfl⟩ := List.mem_map.mp hs
        rfl

/-- The document of some trees is accepted. -/
theorem Portion.exists_ofStatements (h : f.Portion part) (database : Database) (params : ParamList)
    (hpart : part = ts.flatMap Tree.postorder) (hts : ∀ t ∈ ts, ∃ parent, f.Shows parent t)
    (hheight : ∀ t ∈ ts, t.height ≤ maxDepth) :
    ∃ g, Group.ofStatements database (f.document part params) = .ok g := by
  have hlow : ∀ x ∈ part, ∀ xs : List ParticleId, (x :: xs).IsChain f.ParentOf →
      xs.length ≤ maxDepth := by
    intro x hx xs hxs
    rw [hpart] at hx
    obtain ⟨t, ht, hx⟩ := List.mem_flatMap.mp hx
    obtain ⟨parent, hshows⟩ := hts t ht
    obtain ⟨ys, hys, hle⟩ := isChain_above (hshows.above (t.perm_postorder.mem_iff.mp hx)) hxs
    exact hle.trans ((hshows.length_le_height h.linked hys).trans (hheight t ht))
  exact Group.exists_ofStatements database h.wellTyped h.singleTargets h.acyclic (h.shallow hlow)

/-- For the document of some trees the same trees are built, with their places in the document for
serial numbers. -/
theorem Part.rebuilt (h : f.Part part) (database : Database) (params : ParamList)
    (hpart : part = ts.flatMap Tree.postorder) (hts : ∀ t ∈ ts, ∃ parent, f.Shows parent t)
    (hheight : ∀ t ∈ ts, t.height ≤ maxDepth)
    (htop : ∀ t ∈ ts, ∀ x ∈ part, ¬ f.ParentOf x t.id) :
    ∃ g c, Group.ofStatements database (f.document part params) = .ok g ∧ g.params = params ∧
      part.map c = (List.range part.length).map (fun n => ⟨n, 0⟩) ∧
      List.Forall₂ (fun t r => ∃ u, g.forest.tree r = .ok u ∧
        u.relabel g.forest.place = t.relabel c) ts g.roots := by
  obtain ⟨g, hg⟩ := h.exists_ofStatements database params hpart hts hheight
  have hdeclared : (f.document part params).flatMap Building.declared = part.map f.called :=
    h.flatMap_declared_document
  have hnodup := h.nodup_called
  obtain ⟨names, table, htable, hb, hroots, hgparams, hnumbers⟩ :=
    Group.ofStatements_numbered hg (hdeclared ▸ hnodup)
  rw [hdeclared] at hnumbers
  refine ⟨g, g.forest.place ∘ f.standIn names, hg, hgparams.trans groupParams_document,
    map_standIn hnodup hnumbers, ?_⟩
  have hfound := hroots.symm.trans (h.roots_document htable hb hpart hts htop)
  rw [Except.ok.inj hfound, List.forall₂_map_right_iff]
  refine List.forall₂_same.mpr fun t ht => ?_
  obtain ⟨parent, hshows⟩ := hts t ht
  have hids : ∀ x ∈ t.ids, x ∈ part := fun x hx =>
    hpart ▸ List.mem_flatMap.mpr ⟨t, ht, t.perm_postorder.mem_iff.mpr hx⟩
  obtain ⟨u, parent', hu, hid, hrelabel⟩ := h.exists_mirror htable hb hshows hids
  refine ⟨u, ?_, ?_⟩
  · rw [← hid, hu.tree_eq hb.linked, Tree.height_eq_of_shape (Tree.shape_eq_of_relabel hrelabel),
      if_neg (Nat.not_lt_of_le (hheight t ht))]
  · rw [← Tree.relabel_relabel, ← hrelabel, Tree.relabel_relabel, Function.comp_id]

/-! ### Texts -/

/-- The text of a particle consists of the statements of its tree. -/
theorem spelled_written {r : ParticleId} {R : Particle} {text : String} (hf : Linked f)
    (hR : f.particle? r = some R) (hseen : ∀ x, f.Above r x → f.SeenAt x)
    (h : f.written r = .ok text) :
    ∃ t, f.Shows R.parent t ∧ t.id = r ∧ t.height ≤ maxDepth ∧ f.tree r = .ok t ∧
      Spelled (t.postorder.flatMap f.statementsOf) text := by
  obtain ⟨t, ht, rfl, hheight, htree, hw⟩ := hf.exists_tree_of_written hR h
  exact ⟨t, ht, rfl, hheight, htree, ht.spelled (fun x hx => hseen x (ht.above hx)) hw⟩

theorem spelled_groupParam {e : String × Value} {text : String} (hkey : Leading e.1)
    (hv : e.2.Worded Shown) (hflag : e.2 ≠ .flag true) (hdepth : e.2.depth ≤ maxListDepth)
    (h : Writing.groupParam e = .ok text) : Spelled [.param e.1 e.2] text := by
  unfold Writing.groupParam at h
  obtain ⟨key, hname, h⟩ := exists_of_bind_eq_ok h
  obtain ⟨w, hw, h⟩ := exists_of_bind_eq_ok h
  cases h
  refine Spelled.one (stated_param (name_eq_ok hname) hkey (unbroken_value e.2 hw) fun rest hrest => ?_)
  exact value_written e.2 hv hflag hdepth hw hrest

end Forest

namespace Group

open Forest Grammar

variable {g g' : Group} {ss : List Statement} {text : String} {database : Database}

/-- A document is read and then built. -/
theorem read_eq_ok {source : String} : Group.read database source = .ok g ↔
    ∃ located, Document.read source = .ok located ∧
      ofStatements database (located.map Located.value) = .ok g := by
  unfold Group.read
  rcases Document.read source with e | located
  · exact iff_of_false nofun nofun
  · rcases hbuilt : ofStatements database (located.map Located.value) with e | g' <;>
      simp [Except.mapError, bind, Except.bind, hbuilt]

/-- Lines of statements are read as these statements. -/
theorem read_spelled (h : Spelled ss text) (hne : ss ≠ [])
    (hg : ofStatements database ss = .ok g) : Group.read database text = .ok g := by
  obtain ⟨texts, hall, htext⟩ := h
  obtain ⟨located, hread, hvalues⟩ := Document.read_lines hall hne htext
  exact read_eq_ok.mpr ⟨located, hread, hvalues ▸ hg⟩

/-- What a group must be like for its text to read back: its roots are different live particles
without parents, it has some content, and all that is written can be read. -/
structure Plain (g : Group) : Prop where
  distinct : g.roots.Nodup
  rooted : ∀ r ∈ g.roots, ∃ R, g.forest.particle? r = some R ∧ R.parent = none
  content : g.roots ≠ [] ∨ g.params ≠ ∅
  below : ∀ r ∈ g.roots, ∀ x, g.forest.Above r x → g.forest.PlainAt x
  params : ∀ e ∈ g.params.entries, Commentless e.1 ∧ e.2.Plain ∧ e.2 ≠ .flag true ∧
    e.2.depth ≤ maxListDepth

/-- A group is as a document may describe it, with all names and texts of one sort. -/
structure Worded (sort : String → Prop) (g : Group) : Prop where
  distinct : g.roots.Nodup
  rooted : ∀ r ∈ g.roots, ∃ R, g.forest.particle? r = some R ∧ R.parent = none
  below : ∀ r ∈ g.roots, ∀ x, g.forest.Above r x → g.forest.WordedAt sort x
  params : ∀ e ∈ g.params.entries, sort e.1 ∧ e.2.Worded sort ∧ e.2 ≠ .flag true ∧
    e.2.depth ≤ maxListDepth

/-- All that is written for a group is seen. A parameter of the group stands at the start of a line. -/
structure Seen (g : Group) : Prop extends g.Worded Shown where
  types : ∀ r ∈ g.roots, ∀ x X, g.forest.Above r x → g.forest.particle? x = some X →
    isBlocked X.type = false
  keys : ∀ e ∈ g.params.entries, isBlocked e.1 = false

theorem Plain.seen (hg : g.Plain) : g.Seen where
  distinct := hg.distinct
  rooted := hg.rooted
  below r hr x hx := (hg.below r hr x hx).seen.1
  params e he := by
    obtain ⟨hkey, hv, hrest⟩ := hg.params e he
    exact ⟨hkey.legible.shown, ((Value.plain_iff _).mp hv).imp _ fun _ _ hw => hw.legible.shown, hrest⟩
  types r hr x X hx hX := (hg.below r hr x hx).seen.2 X hX
  keys e he := (hg.params e he).1.legible.leading.2

end Group

/-- A forest that comes from a document, or from nothing, and then from operations. -/
inductive Forest.Arises : Forest → Prop
  | empty (database : Database) : Arises { database }
  | read {database : Database} {statements : List Statement} {g : Group} :
    Group.ofStatements database statements = .ok g → Arises g.forest
  | step {f : Forest} (op : Operation) : Arises f → op.Admitted f → Arises (op.after f)

/-- Two particles have trees of one shape. -/
def Forest.SameShape (f f' : Forest) (r r' : ParticleId) : Prop :=
  ∃ t t', f.tree r = .ok t ∧ f'.tree r' = .ok t' ∧ t'.shape = t.shape

namespace Forest

theorem Arises.linked {f : Forest} (h : f.Arises) : Linked f := by
  induction h with
  | empty database => exact .empty database
  | read hg =>
    obtain ⟨names, table, -, hb, -⟩ := Group.ofStatements_eq_ok hg
    exact hb.linked
  | step op _ hop ih => exact op.linked_after ih hop

theorem Arises.serials {f : Forest} (h : f.Arises) : DistinctSerials f := by
  induction h with
  | empty database => exact .empty database
  | read hg =>
    obtain ⟨names, table, -, hb, -⟩ := Group.ofStatements_eq_ok hg
    exact hb.serials
  | step op _ _ ih => exact op.keeps lasting_distinctSerials _ ih

end Forest

namespace Group

open Forest Grammar

variable {g : Group} {text : String}

/-- What is written for a group is one text for each tree and each parameter, if all of it is seen. -/
theorem exists_trees (hf : Linked g.forest) (hg : g.Seen) (h : g.written = .ok text) :
    ∃ ts : List Tree,
      List.Forall₂ (fun r t => g.forest.Shows none t ∧ t.id = r ∧ t.height ≤ maxDepth ∧
        g.forest.tree r = .ok t) g.roots ts ∧
      Spelled (g.forest.document (ts.flatMap Tree.postorder) g.params) text := by
  unfold Group.written at h
  obtain ⟨texts, htexts, h⟩ := exists_of_bind_eq_ok h
  obtain ⟨paramTexts, hparamTexts, h⟩ := exists_of_bind_eq_ok h
  cases h
  have hall : List.Forall₂ (fun r text => ∃ t, (g.forest.Shows none t ∧ t.id = r ∧
      t.height ≤ maxDepth ∧ g.forest.tree r = .ok t) ∧
        Spelled (t.postorder.flatMap g.forest.statementsOf) text) g.roots texts := by
    refine forall₂_imp_of_mem (forall₂_of_mapM_eq_ok htexts) fun r hr text _ htext => ?_
    obtain ⟨R, hR, hnone⟩ := hg.rooted r hr
    obtain ⟨t, ht, hid, hheight, htree, hspelled⟩ := spelled_written hf hR
      (fun x hx => ⟨hg.below r hr x hx, fun X => hg.types r hr x X hx⟩) htext
    exact ⟨t, ⟨hnone ▸ ht, hid, hheight, htree⟩, hspelled⟩
  obtain ⟨ts, hts, hspelled⟩ := exists_between_of_forall₂ hall
  refine ⟨ts, hts, ?_⟩
  have hparams : Spelled (g.params.entries.flatMap fun e => [.param e.1 e.2]) (String.join paramTexts) := by
    refine Spelled.join (forall₂_imp_of_mem (forall₂_of_mapM_eq_ok hparamTexts)
      fun e he text _ htext => ?_)
    obtain ⟨hkey, hv, hflag, hdepth⟩ := hg.params e he
    exact spelled_groupParam ⟨hkey, hg.keys e he⟩ hv hflag hdepth htext
  rw [document, List.flatMap_assoc, ← List.flatMap_pure_eq_map]
  exact (Spelled.join hspelled).append hparams

/-- The statements of a group with any content are some. -/
theorem document_ne_nil {f : Forest} {ts : List Tree} {params : ParamList}
    (hts : ∀ t ∈ ts, ∃ parent, f.Shows parent t) (h : ts ≠ [] ∨ params ≠ ∅) :
    f.document (ts.flatMap Tree.postorder) params ≠ [] := by
  intro hnil
  obtain ⟨hstatements, hparams⟩ := List.append_eq_nil_iff.mp hnil
  rcases h with hne | hne
  · obtain ⟨t, ht⟩ := List.exists_mem_of_ne_nil ts hne
    obtain ⟨parent, hshows⟩ := hts t ht
    obtain ⟨T, hT, -⟩ := hshows.top
    have hmem : t.id ∈ ts.flatMap Tree.postorder :=
      List.mem_flatMap.mpr ⟨t, ht, t.perm_postorder.mem_iff.mpr t.id_mem_ids⟩
    have hnode := node_mem_statementsOf.mpr ⟨T, hT, rfl, rfl⟩
    exact List.ne_nil_of_mem hnode (List.flatMap_eq_nil_iff.mp hstatements _ hmem)
  · exact hne (ParamList.eq_empty_of_entries (List.map_eq_nil_iff.mp hparams))

/-- The text of a document of trees is read as a group of the same trees, with their places in the
document for serial numbers. -/
theorem exists_read {f : Forest} {ts : List Tree} {params : ParamList} (database : Database)
    (hts : ∀ t ∈ ts, ∃ parent, f.Shows parent t) (hheight : ∀ t ∈ ts, t.height ≤ maxDepth)
    (hpart : f.Part (ts.flatMap Tree.postorder))
    (htop : ∀ t ∈ ts, ∀ x ∈ ts.flatMap Tree.postorder, ¬ f.ParentOf x t.id)
    (hne : ts ≠ [] ∨ params ≠ ∅)
    (h : Spelled (f.document (ts.flatMap Tree.postorder) params) text) :
    ∃ g' c, Group.read database text = .ok g' ∧ g'.params = params ∧
      (ts.flatMap Tree.postorder).map c =
        (List.range (ts.flatMap Tree.postorder).length).map (fun n => ⟨n, 0⟩) ∧
      List.Forall₂ (fun t r => ∃ u, g'.forest.tree r = .ok u ∧
        u.relabel g'.forest.place = t.relabel c) ts g'.roots := by
  obtain ⟨g', c, hg', hparams', hc, hroots⟩ := hpart.rebuilt database params rfl hts hheight htop
  exact ⟨g', c, read_spelled h (document_ne_nil hts hne) hg', hparams', hc, hroots⟩

/-- The text of a plain group is read as a group of the same trees. Their places in the text are the
serial numbers of their particles. -/
theorem Plain.reads_numbered (database : Database) (hf : g.forest.Arises) (hg : g.Plain)
    (htext : g.written = .ok text) :
    ∃ g' c, ∃ ts : List Tree, Group.read database text = .ok g' ∧ g'.params = g.params ∧
      List.Forall₂ (fun r t => g.forest.tree r = .ok t) g.roots ts ∧
      (ts.flatMap Tree.postorder).map c =
        (List.range (ts.flatMap Tree.postorder).length).map (fun n => ⟨n, 0⟩) ∧
      List.Forall₂ (fun t r => ∃ u, g'.forest.tree r = .ok u ∧
        u.relabel g'.forest.place = t.relabel c) ts g'.roots := by
  obtain ⟨ts, hts, hspelled⟩ := exists_trees hf.linked hg.seen htext
  have hshows : ∀ t ∈ ts, g.forest.Shows none t ∧ t.height ≤ maxDepth ∧ t.id ∈ g.roots := by
    intro t ht
    obtain ⟨r, hr, hshows, rfl, hheight, -⟩ := exists_left_of_forall₂ hts ht
    exact ⟨hshows, hheight, hr⟩
  have hpart := part_of_trees hf.linked hf.serials (fun t ht => ⟨none, (hshows t ht).1⟩)
    (pairwise_apart hg.distinct (hts.imp fun _ _ h => ⟨h.1, h.2.1⟩))
    fun t ht => hg.below t.id (hshows t ht).2.2
  have hne : ts ≠ [] ∨ g.params ≠ ∅ := by
    refine hg.content.imp_left fun hne hnil => hne ?_
    rw [hnil] at hts
    exact List.forall₂_nil_right_iff.mp hts
  obtain ⟨g', c, hread, hparams, hc, hroots⟩ := exists_read database
    (fun t ht => ⟨none, (hshows t ht).1⟩) (fun t ht => (hshows t ht).2.1) hpart
    (fun t ht x _ => (hshows t ht).1.parentless x) hne hspelled
  exact ⟨g', c, ts, hread, hparams, hts.imp fun _ _ h => h.2.2.2, hc, hroots⟩

theorem Plain.reads (database : Database) (hf : g.forest.Arises) (hg : g.Plain)
    (htext : g.written = .ok text) :
    ∃ g', Group.read database text = .ok g' ∧ g'.params = g.params ∧
      List.Forall₂ (g.forest.SameShape g'.forest) g.roots g'.roots := by
  obtain ⟨g', c, ts, hread, hparams, hts, -, hroots⟩ := hg.reads_numbered database hf htext
  refine ⟨g', hread, hparams, forall₂_trans hts hroots fun r t r' h h' => ?_⟩
  obtain ⟨u, hu, hrelabel⟩ := h'
  exact ⟨t, u, h, hu, Tree.shape_eq_of_relabel hrelabel⟩

theorem reads_particle (database : Database) {f : Forest} {p : ParticleId} {P : Particle}
    (hf : f.Arises) (hP : f.particle? p = some P) (hplain : ∀ x, f.Above p x → f.PlainAt x)
    (htext : f.written p = .ok text) :
    ∃ g' r, Group.read database text = .ok g' ∧ g'.params = ∅ ∧ g'.roots = [r] ∧
      f.SameShape g'.forest p r := by
  obtain ⟨t, ht, rfl, hheight, htree, hspelled⟩ :=
    spelled_written hf.linked hP (fun x hx => (hplain x hx).seen) htext
  have hone : ∀ u ∈ [t], u = t := fun u hu => List.mem_singleton.mp hu
  have hshows : ∀ u ∈ [t], ∃ parent, f.Shows parent u := fun u hu => ⟨P.parent, hone u hu ▸ ht⟩
  have hpart := part_of_trees hf.linked hf.serials hshows (List.pairwise_singleton _ t)
    fun u hu => hone u hu ▸ hplain
  -- What is written is below the particle, so its parent is not among it.
  have htop : ∀ u ∈ [t], ∀ x ∈ [t].flatMap Tree.postorder, ¬ f.ParentOf x u.id := by
    intro u hu x hx hxt
    rw [hone u hu] at hxt
    rw [List.flatMap_singleton] at hx
    exact hf.linked.not_above_of_parentOf hxt (ht.above (t.perm_postorder.mem_iff.mp hx))
  have hdocument : Spelled (f.document ([t].flatMap Tree.postorder) ∅) text := by
    rw [document, List.flatMap_singleton]
    exact (List.append_nil _).symm ▸ hspelled
  obtain ⟨g', c, hread, hparams, -, hroots⟩ := exists_read database hshows
    (fun u hu => hone u hu ▸ hheight) hpart htop (.inl (List.cons_ne_nil _ _)) hdocument
  obtain ⟨r, others, ⟨u, hu, hrelabel⟩, hothers, heq⟩ := List.forall₂_cons_left_iff.mp hroots
  rw [List.forall₂_nil_left_iff.mp hothers] at heq
  exact ⟨g', r, hread, hparams, heq, t, u, htree, hu, Tree.shape_eq_of_relabel hrelabel⟩

/-- What is written for a group reads back: the text of a plain group is a document, and the group of
that document has the same parameters and, root by root, the same trees up to handles. The text of a
live particle, if it can be read at all, is the document of a group with one root, which has the same
tree, and without parameters. -/
theorem written_reads (database : Database) (hf : g.forest.Arises) :
    (g.Plain → ∀ text, g.written = .ok text →
      ∃ g', Group.read database text = .ok g' ∧ g'.params = g.params ∧
        List.Forall₂ (g.forest.SameShape g'.forest) g.roots g'.roots) ∧
    ∀ p P, g.forest.particle? p = some P → (∀ x, g.forest.Above p x → g.forest.PlainAt x) →
      ∀ text, g.forest.written p = .ok text →
        ∃ g' r, Group.read database text = .ok g' ∧ g'.params = ∅ ∧ g'.roots = [r] ∧
          g.forest.SameShape g'.forest p r := by
  constructor
  · intro hg text htext
    exact hg.reads database hf htext
  · intro p P hP hplain text htext
    exact reads_particle database hf hP hplain htext

/-- A particle with one decay, and the title of the group. -/
def titledDecay : Group where
  forest :=
    Operation.addDecay ⟨0, 0⟩ [⟨1, 0⟩] (.ofEntries [("model", .record [("PHSP", .flag true)])])
      |>.after <|
    Operation.addParticle "K-" ∅ |>.after <|
    Operation.addParticle "D0" (.ofEntries [("mass", .text "1.86")]) |>.after {}
  roots := [⟨0, 0⟩]
  params := .ofEntries [("title", .text "one decay")]

theorem plainAt_titledDecay (x : ParticleId) : titledDecay.forest.PlainAt x := by
  intro X hX
  have hempty : ParamList.Plain ∅ := ⟨trivial, by decide⟩
  rcases x with ⟨⟨_ | _ | n, _ | m⟩⟩
  · cases (show titledDecay.forest.particle? ⟨0, 0⟩ =
      some ⟨"D0", .ofEntries [("mass", .text "1.86")], none, [⟨0, 0⟩], 0⟩ from rfl).symm.trans hX
    have hmass : Commentless "1.86" := by decide
    refine ⟨by decide, rfl, ⟨⟨by decide, hmass, trivial⟩, by decide⟩, fun d hd D hD => ?_⟩
    cases List.mem_singleton.mp hd
    cases (show titledDecay.forest.decay? ⟨0, 0⟩ =
      some ⟨[⟨1, 0⟩], .ofEntries [("model", .record [("PHSP", .flag true)])], some ⟨0, 0⟩, 2⟩
        from rfl).symm.trans hD
    exact ⟨⟨by decide, ⟨List.pairwise_singleton _ _, by decide, rfl, trivial⟩, trivial⟩, by decide⟩
  · cases (show titledDecay.forest.particle? ⟨0, m + 1⟩ = none from rfl).symm.trans hX
  · cases (show titledDecay.forest.particle? ⟨1, 0⟩ =
      some ⟨"K-", ∅, some ⟨0, 0⟩, [], 1⟩ from rfl).symm.trans hX
    exact ⟨by decide, rfl, hempty, nofun⟩
  · cases (show titledDecay.forest.particle? ⟨1, m + 1⟩ = none from rfl).symm.trans hX
  · cases (show titledDecay.forest.particle? ⟨n + 2, 0⟩ = none from rfl).symm.trans hX
  · cases (show titledDecay.forest.particle? ⟨n + 2, m + 1⟩ = none from rfl).symm.trans hX

theorem written_reads_titledDecay : ∃ g', Group.read {}
      ("K-_1[type=K-];\nD0_0[type=D0, mass=1.86];\nD0_0 -> \x7b K-_1 \x7d[model=[PHSP]];\n" ++
        "title = \"one decay\";\n") = .ok g' ∧
    g'.params = titledDecay.params ∧
    List.Forall₂ (titledDecay.forest.SameShape g'.forest) titledDecay.roots g'.roots := by
  have harises : titledDecay.forest.Arises :=
    .step _ (.step _ (.step _ (.empty {}) trivial) trivial) trivial
  have hplain : titledDecay.Plain := {
    distinct := List.nodup_singleton _
    rooted := fun r hr => by
      cases List.mem_singleton.mp hr
      exact ⟨_, rfl, rfl⟩
    content := .inl (List.cons_ne_nil _ _)
    below := fun _ _ x _ => plainAt_titledDecay x
    params := fun e he => by
      cases List.mem_singleton.mp he
      have htitle : Commentless "one decay" := by decide
      exact ⟨by decide, htitle, nofun, by decide⟩ }
  exact (written_reads {} harises).1 hplain _ rfl

end Group

end DecayForest
