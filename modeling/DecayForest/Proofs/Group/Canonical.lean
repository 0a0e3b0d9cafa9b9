import DecayForest.Proofs.Group.Showing
/-!
# Texts that come to rest

The names in a text carry the serial numbers of the particles, and those depend on how the group was
built; but in a group that is read from such a text they are places in the text, and those hang on shapes
alone. So the second text of a document depends only on what the document says, and writing goes on with
that text for ever (`Group.rewritten_canonical`).
-/

namespace DecayForest

open Grammar

/-! ### What hangs on shapes alone -/

namespace Tree

variable {t u : Tree}

/-- No comment opens in a tree, and no particle in it states a type. -/
def Plain : Tree → Prop :=
  All (fun type params => Commentless type ∧ params.value? ParamList.typeName = none ∧ params.Plain)
    ParamList.Plain

theorem plain_iff_of_shape (h : t.shape = u.shape) : t.Plain ↔ u.Plain :=
  all_iff_of_shape h

end Tree

theorem Forest.Shows.plain_iff {f : Forest} {parent : Option ParticleId} {t : Tree}
    (h : f.Shows parent t) : t.Plain ↔ ∀ x ∈ t.ids, f.PlainAt x := by
  refine h.all_iff.trans (forall₂_congr fun x _ => forall₂_congr fun X _ => ?_)
  rw [and_assoc, and_assoc]

namespace Writing

variable {f g : Forest} {parent parent' : Option ParticleId} {t u : Tree}

/-- A particle is called by its type and its serial number. -/
theorem identifier_eq_of_relabel (ht : f.Shows parent t) (hu : g.Shows parent' u)
    (h : t.relabel f.place = u.relabel g.place) : identifier f t.id = identifier g u.id := by
  obtain ⟨T, hT, -, -, hTeq⟩ := ht.top
  obtain ⟨U, hU, -, -, hUeq⟩ := hu.top
  rw [hTeq, hUeq, Tree.relabel_node, Tree.relabel_node] at h
  obtain ⟨hplace, htype, -, -⟩ := Tree.node.inj h
  have hserial : T.serial = U.serial := by
    rw [Forest.place_of_some hT, Forest.place_of_some hU] at hplace
    exact congrArg (·.key.slot) hplace
  rw [identifier_of_some hT, identifier_of_some hU, Forest.called_of_some hT, Forest.called_of_some hU,
    Particle.uniqueName, Particle.uniqueName, htype, hserial]

theorem branch_eq {own : String} {b b' : Branch} (hparams : b.params = b'.params)
    (hproducts : List.Forall₂ (fun v w : Tree => identifier f v.id = identifier g w.id)
      b.products b'.products) : branch f own b = branch g own b' := by
  rcases b with ⟨d, params, products⟩
  rcases b' with ⟨d', params', products'⟩
  obtain rfl : params = params' := hparams
  have hnames : products.mapM (fun v => identifier f v.id) =
      products'.mapM fun w => identifier g w.id := mapM_eq_of_forall₂ hproducts
  rw [branch, branch, hnames]

/-- Trees that differ in handles only, not in serial numbers, have one text. -/
theorem tree_eq_of_relabel (ht : f.Shows parent t) (hu : g.Shows parent' u)
    (h : t.relabel f.place = u.relabel g.place) : tree f t = tree g u := by
  induction t using Tree.induction generalizing parent parent' u with
  | node id type params branches ih =>
    have hown := identifier_eq_of_relabel ht hu h
    rcases u with ⟨id', type', params', branches'⟩
    rw [Tree.relabel_node, Tree.relabel_node] at h
    obtain ⟨-, rfl, rfl, hbranches⟩ := Tree.node.inj h
    have hpairs : List.Forall₂ (fun b b' : Branch => b.params = b'.params ∧
        List.Forall₂ (fun v w : Tree => identifier f v.id = identifier g w.id ∧ tree f v = tree g w)
          b.products b'.products) branches branches' := by
      refine forall₂_imp_of_mem (forall₂_iff_map_eq.mpr hbranches) fun b hb b' hb' heq => ?_
      obtain ⟨-, hparams, hproducts⟩ := Branch.mk.inj heq
      refine ⟨hparams, forall₂_imp_of_mem (forall₂_iff_map_eq.mpr hproducts) fun v hv w hw hvw => ?_⟩
      have hv' := ht.product hb hv
      have hw' := hu.product hb' hw
      exact ⟨identifier_eq_of_relabel hv' hw' hvw, ih b hb v hv hv' hw' hvw⟩
    have hbelow : belowAll f branches = belowAll g branches' := by
      rw [belowAll_eq, belowAll_eq]
      refine congrArg (String.join <$> ·) (mapM_eq_of_forall₂ ?_)
      exact List.rel_flatMap hpairs fun _ _ hbb' => hbb'.2.imp fun _ _ => And.right
    have hdecays : ∀ own, branches.mapM (branch f own) = branches'.mapM (branch g own) := fun own =>
      mapM_eq_of_forall₂ (hpairs.imp fun _ _ hbb' =>
        branch_eq hbb'.1 (hbb'.2.imp fun _ _ => And.left))
    rw [Tree.id_node, Tree.id_node] at hown
    rw [tree, tree, hbelow, hown]
    simp only [hdecays]

end Writing

namespace Group

open Forest

variable {database database' : Database} {source source' text text' : String} {g g' h h' : Group}
  {ts : List Tree} {c : ParticleId → ParticleId}

/-- Groups of trees that differ in handles only, not in serial numbers, have one text. -/
theorem written_eq_of_relabel (hg : Group.read database source = .ok g)
    (hh : Group.read database' source' = .ok h) (hparams : g.params = h.params)
    (hroots : List.Forall₂ (fun r q => ∃ t u, g.forest.tree r = .ok t ∧ h.forest.tree q = .ok u ∧
      t.relabel g.forest.place = u.relabel h.forest.place) g.roots h.roots) :
    g.written = h.written := by
  have htrees : g.roots.mapM g.forest.written = h.roots.mapM h.forest.written := by
    refine mapM_eq_of_forall₂ (forall₂_imp_of_mem hroots fun r hr q hq hrq => ?_)
    obtain ⟨t, u, ht, hu, hrelabel⟩ := hrq
    obtain ⟨t', hshows, rfl, ht'⟩ := exists_tree_of_read hg r hr
    obtain ⟨u', hshows', rfl, hu'⟩ := exists_tree_of_read hh q hq
    cases ht.symm.trans ht'
    cases hu.symm.trans hu'
    rw [Forest.written, Forest.written, ht, hu]
    exact Writing.tree_eq_of_relabel hshows hshows' hrelabel
  rw [written, written, htrees, hparams]

theorem plain_of_read (hg : Group.read database source = .ok g)
    (hcommentless : ∀ w, g.Says w → Commentless w)
    (huntyped : ∀ X, g.Holds X → X.params.value? ParamList.typeName = none)
    (hcontent : g.roots ≠ [] ∨ g.params ≠ ∅) : g.Plain := by
  have hworded := (read_worded hg).imp fun w hw _ => hcommentless w hw
  refine ⟨hworded.distinct, hworded.rooted, hcontent, fun r hr x hx X hX => ?_,
    fun e he => ?_⟩
  · obtain ⟨htype, hparams, hdecays⟩ := hworded.below r hr x hx X hX
    exact ⟨htype, huntyped X ⟨r, hr, x, hx, hX⟩, ParamList.plain_iff.mpr hparams,
      fun d hd D hD => ParamList.plain_iff.mpr (hdecays d hd D hD)⟩
  · obtain ⟨hkey, hv, hrest⟩ := hworded.params e he
    exact ⟨hkey, (Value.plain_iff _).mpr hv, hrest⟩

/-- Groups of the same trees and parameters are plain together. -/
theorem Plain.of_sameShape (hplain : g.Plain) (hg : Group.read database source = .ok g)
    (hh : Group.read database' source' = .ok h) (hparams : g.params = h.params)
    (hroots : List.Forall₂ (g.forest.SameShape h.forest) g.roots h.roots) : h.Plain := by
  have hworded := read_worded hh
  refine ⟨hworded.distinct, hworded.rooted, ?_, fun r hr x hx => ?_,
    hparams ▸ hplain.params⟩
  · rw [← hparams]
    refine hplain.content.imp_left fun hne hnil => hne ?_
    rw [hnil] at hroots
    exact List.forall₂_nil_right_iff.mp hroots
  · obtain ⟨q, hq, t, u, ht, hu, hshape⟩ := exists_left_of_forall₂ hroots hr
    obtain ⟨t', hshows, rfl, ht'⟩ := exists_tree_of_read hg q hq
    cases ht.symm.trans ht'
    obtain ⟨u', hshows', rfl, hu'⟩ := exists_tree_of_read hh r hr
    cases hu.symm.trans hu'
    have hall := hshows.plain_iff.mpr fun y hy => hplain.below t.id hq y (hshows.above hy)
    have hx := (hshows'.mem_ids_iff (arises_of_read hh).linked).mpr hx
    exact hshows'.plain_iff.mp ((Tree.plain_iff_of_shape hshape).mpr hall) x hx

/-- What is written for a group that has been read from the text of a plain group depends on the shapes
of its trees only. -/
theorem Plain.written_eq (hg : g.Plain) (hh : h.Plain) (hf : g.forest.Arises) (hf' : h.forest.Arises)
    (hparams : g.params = h.params)
    (hroots : List.Forall₂ (g.forest.SameShape h.forest) g.roots h.roots)
    (htext : g.written = .ok text) (htext' : h.written = .ok text')
    (hg' : Group.read database text = .ok g') (hh' : Group.read database' text' = .ok h') :
    g'.written = h'.written := by
  obtain ⟨g'', c, ts, hread, hgparams, hts, hc, htrees⟩ := hg.reads_numbered database hf htext
  obtain ⟨h'', c', us, hread', hhparams, hus, hc', htrees'⟩ := hh.reads_numbered database' hf' htext'
  cases hg'.symm.trans hread
  cases hh'.symm.trans hread'
  have hpairs : List.Forall₂ (fun t q => ∃ u, h.forest.tree q = .ok u ∧ u.shape = t.shape)
      ts h.roots := by
    refine forall₂_trans hts.flip hroots fun t r q ht hrq => ?_
    obtain ⟨t', u, ht', hu, hshape⟩ := hrq
    cases (show g.forest.tree r = .ok t from ht).symm.trans ht'
    exact ⟨u, hu, hshape⟩
  have hshape : List.Forall₂ (fun t u : Tree => t.shape = u.shape) ts us := by
    refine forall₂_trans hpairs hus fun t q u htq hu => ?_
    obtain ⟨u', hu', hshape⟩ := htq
    cases hu.symm.trans hu'
    exact hshape.symm
  have hmap : (ts.flatMap Tree.postorder).map c = (us.flatMap Tree.postorder).map c' := by
    rw [hc, hc', Tree.length_flatMap_postorder_eq_of_shape hshape]
  have hrelabel := forall₂_iff_map_eq.mpr (Tree.map_relabel_eq_of_postorder hshape hmap)
  have hfirst : List.Forall₂ (fun r u => ∃ t', g'.forest.tree r = .ok t' ∧
      t'.relabel g'.forest.place = u.relabel c') g'.roots us := by
    refine forall₂_trans htrees.flip hrelabel fun r t u htr htu => ?_
    obtain ⟨t', ht', htt'⟩ := htr
    exact ⟨t', ht', htt'.trans htu⟩
  refine written_eq_of_relabel hg' hh' (hgparams.trans (hparams.trans hhparams.symm)) ?_
  refine forall₂_trans hfirst htrees' fun r u q hru huq => ?_
  obtain ⟨t', ht', hru⟩ := hru
  obtain ⟨u', hu', huq⟩ := huq
  exact ⟨t', u', ht', hu', hru.trans huq.symm⟩

/-- A document is read, and its group is written. -/
def rewritten (database : Database) (source : String) : Except DocumentError String := do
  (← Group.read database source).written.mapError .refused

theorem rewritten_eq (hg : Group.read database source = .ok g) (htext : g.written = .ok text) :
    rewritten database source = .ok text := by
  rw [rewritten, hg]
  show g.written.mapError _ = _
  rw [htext]
  rfl

/-- The second text of a document depends only on what the document says: documents with the same
parameters and the same trees, in which no comment opens, no particle states a type and not all is
missing, have the same second text. Each further text is that text again. -/
theorem rewritten_canonical {database₁ database₂ : Database} {source₁ source₂ : String}
    {g₁ g₂ : Group}
    (h₁ : Group.read database₁ source₁ = .ok g₁) (h₂ : Group.read database₂ source₂ = .ok g₂)
    (hparams : g₁.params = g₂.params)
    (hroots : List.Forall₂ (g₁.forest.SameShape g₂.forest) g₁.roots g₂.roots)
    (hcommentless : ∀ w, g₁.Says w → Commentless w)
    (huntyped : ∀ X, g₁.Holds X → X.params.value? ParamList.typeName = none)
    (hcontent : g₁.roots ≠ [] ∨ g₁.params ≠ ∅) :
    ∃ text₁ text₂ text, rewritten database₁ source₁ = .ok text₁ ∧
      rewritten database₂ source₂ = .ok text₂ ∧
      ∀ database, rewritten database text₁ = .ok text ∧ rewritten database text₂ = .ok text ∧
        rewritten database text = .ok text := by
  have hf₁ := arises_of_read h₁
  have hf₂ := arises_of_read h₂
  have hplain₁ := plain_of_read h₁ hcommentless huntyped hcontent
  have hplain₂ := hplain₁.of_sameShape h₁ h₂ hparams hroots
  obtain ⟨text₁, htext₁⟩ := exists_written h₁
  obtain ⟨text₂, htext₂⟩ := exists_written h₂
  -- The first text read again is a third document with the same trees.
  obtain ⟨g, hg, hgparams, hgroots⟩ := hplain₁.reads {} hf₁ htext₁
  have hf := arises_of_read hg
  have hplain := hplain₁.of_sameShape h₁ hg hgparams.symm hgroots
  obtain ⟨text, htext⟩ := exists_written hg
  refine ⟨text₁, text₂, text, rewritten_eq h₁ htext₁, rewritten_eq h₂ htext₂, fun database => ?_⟩
  obtain ⟨g₁', hg₁', -⟩ := hplain₁.reads database hf₁ htext₁
  obtain ⟨g₂', hg₂', -⟩ := hplain₂.reads database hf₂ htext₂
  obtain ⟨g', hg', -⟩ := hplain.reads database hf htext
  have hsame : List.Forall₂ (g₁.forest.SameShape g₁.forest) g₁.roots g₁.roots :=
    List.forall₂_same.mpr fun r hr => by
      obtain ⟨t, -, -, htree⟩ := exists_tree_of_read h₁ r hr
      exact ⟨t, t, htree, htree, rfl⟩
  refine ⟨rewritten_eq hg₁' ?_, rewritten_eq hg₂' ?_, rewritten_eq hg' ?_⟩
  · exact (hplain₁.written_eq hplain₁ hf₁ hf₁ rfl hsame htext₁ htext₁ hg₁' hg).trans htext
  · exact (hplain₁.written_eq hplain₂ hf₁ hf₂ hparams hroots htext₁ htext₂ hg hg₂').symm.trans htext
  · exact (hplain₁.written_eq hplain hf₁ hf hgparams.symm hgroots htext₁ htext hg hg').symm.trans htext

/-- A decay and a parameter of the group. -/
def sourceFirst : Group where
  forest := Operation.addDecay ⟨0, 0⟩ [⟨1, 0⟩, ⟨2, 0⟩] ∅ |>.after <|
    Operation.addParticle "C" ∅ |>.after <|
    Operation.addParticle "B" ∅ |>.after <|
    Operation.addParticle "A" ∅ |>.after {}
  roots := [⟨0, 0⟩]
  params := .ofEntries [("n", .text "x")]

/-- The same from a document that comes to a product first. -/
def productFirst : Group where
  forest := Operation.addDecay ⟨1, 0⟩ [⟨2, 0⟩, ⟨0, 0⟩] ∅ |>.after <|
    Operation.addParticle "B" ∅ |>.after <|
    Operation.addParticle "A" ∅ |>.after <|
    Operation.addParticle "C" ∅ |>.after {}
  roots := [⟨1, 0⟩]
  params := .ofEntries [("n", .text "x")]

theorem rewritten_canonical_productFirst : ∃ text₁ text₂ text,
    rewritten {} "A -> \x7b B C \x7d; n = x" = .ok text₁ ∧
    rewritten {} "n = x; C; A -> \x7b B C \x7d" = .ok text₂ ∧
    ∀ database, rewritten database text₁ = .ok text ∧ rewritten database text₂ = .ok text ∧
      rewritten database text = .ok text := by
  have hread₁ : Group.read {} "A -> \x7b B C \x7d; n = x" = .ok sourceFirst :=
    read_eq_ok.mpr ⟨[⟨⟨1, 1⟩, .edge "A" ["B", "C"] ∅⟩, ⟨⟨1, 15⟩, .param "n" (.text "x")⟩],
      rfl, ofStatements_of_build rfl⟩
  have hread₂ : Group.read {} "n = x; C; A -> \x7b B C \x7d" = .ok productFirst :=
    read_eq_ok.mpr ⟨[⟨⟨1, 1⟩, .param "n" (.text "x")⟩, ⟨⟨1, 8⟩, .node "C" ∅⟩,
      ⟨⟨1, 11⟩, .edge "A" ["B", "C"] ∅⟩], rfl, ofStatements_of_build rfl⟩
  have hsame : sourceFirst.forest.SameShape productFirst.forest ⟨0, 0⟩ ⟨1, 0⟩ := ⟨_, _, rfl, rfl, rfl⟩
  have hparticle : ∀ X, sourceFirst.Holds X →
      Commentless X.type ∧ X.params = ∅ ∧ ∀ d ∈ X.decays, ∀ D,
        sourceFirst.forest.decay? d = some D → D.params = ∅ := by
    rintro X ⟨r, -, ⟨⟨_ | _ | _ | n, _ | m⟩⟩, -, hX⟩ <;> cases hX
    · refine ⟨by decide, rfl, fun d hd D hD => ?_⟩
      cases List.mem_singleton.mp hd
      cases hD
      rfl
    · exact ⟨by decide, rfl, fun d hd => absurd hd List.not_mem_nil⟩
    · exact ⟨by decide, rfl, fun d hd => absurd hd List.not_mem_nil⟩
  refine rewritten_canonical hread₁ hread₂ rfl (.cons hsame .nil) (fun w hw => ?_) (fun X hX => ?_)
    (.inl (List.cons_ne_nil _ _))
  · rcases hw with ⟨X, hX, hw⟩ | hw
    · obtain ⟨htype, hparams, hdecays⟩ := hparticle X hX
      rcases hw with rfl | hw | ⟨d, hd, D, hD, hw⟩
      · exact htype
      · rw [hparams] at hw
        cases hw
      · rw [hdecays d hd D hD] at hw
        cases hw
    · have hwords : ∀ w ∈ Value.wordsIn sourceFirst.params.entries, Commentless w := by decide
      exact hwords w hw
  · rw [(hparticle X hX).2.1]
    rfl

end Group

end DecayForest
