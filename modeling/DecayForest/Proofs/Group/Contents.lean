import DecayForest.Proofs.Grammar.Yield
import DecayForest.Proofs.Group.RoundTrip
/-!
# What stands in a group

A group that is built from statements has no names, texts or lists but theirs, so whatever sort those are
of, the group is of it too (`Group.ofStatements_worded`). What is read can be written again
(`Document.read_worded`), and so can the group of a document (`Group.read_worded`). The names and texts
of a group are what it says (`Group.Says`).
-/

namespace DecayForest

variable {sort sort' : String → Prop}

namespace ParamList

variable {base top ps : ParamList} {name : String} {v : Value}

theorem worded_empty : ParamList.Worded sort ∅ :=
  ⟨trivial, by decide⟩

theorem Worded.overlay (hbase : base.Worded sort) (htop : top.Worded sort) :
    (base.overlay top).Worded sort :=
  worded_iff.mpr fun e he =>
    (mem_overlay he).elim (worded_iff.mp hbase e) (worded_iff.mp htop e)

theorem Worded.without (h : ps.Worded sort) (name : String) : (ps.without name).Worded sort :=
  worded_iff.mpr fun e he => worded_iff.mp h e (List.mem_filter.mp he).1

theorem Worded.value (h : ps.Worded sort) (hv : ps.value? name = some v) : v.Worded sort :=
  (worded_iff.mp h _ (mem_of_value? hv)).1.2

end ParamList

namespace Building

open Forest

variable {table table' : Table} {defaults params : ParamList} {statements : List Statement}
  {names : List String} {name type : String} {stated : Option String}

/-! ### The tables -/

/-- All that is known is of one sort. -/
def Table.Worded (sort : String → Prop) (table : Table) : Prop :=
  ∀ a type params, table a = some (type, params) → sort type ∧ params.Worded sort

theorem statedType_worded (hparams : params.Worded sort)
    (h : statedType params = .ok (some type)) : sort type := by
  unfold statedType at h
  split at h
  · cases h
  · next heq =>
    cases h
    exact hparams.value heq
  · cases h

theorem Table.Worded.update (h : table.Worded sort) (htype : sort type)
    (hparams : params.Worded sort) :
    Table.Worded sort (Function.update table name (some (type, params))) := by
  intro a type' params' ha
  by_cases hne : a = name
  · subst hne
    rw [Function.update_self] at ha
    cases ha
    exact ⟨htype, hparams⟩
  · rw [Function.update_of_ne hne] at ha
    exact h a type' params' ha

theorem Table.Worded.enter (h : table.Worded sort) (hname : sort name)
    (hstated : ∀ type, stated = some type → sort type) (hparams : params.Worded sort) :
    (table.enter name stated params).Worded sort := by
  have htype : ∀ known, sort known → sort (stated.getD known) := by
    intro known hknown
    cases stated with
    | none => exact hknown
    | some type => exact hstated type rfl
  unfold Table.enter
  rcases hentry : table name with _ | ⟨known, own⟩
  · exact h.update (htype name hname) hparams
  · obtain ⟨hknown, hown⟩ := h name known own hentry
    exact h.update (htype known hknown) (hown.overlay hparams)

theorem Table.Worded.mention (h : table.Worded sort) (hname : sort name)
    (hdefaults : defaults.Worded sort) : (table.mention defaults name).Worded sort := by
  unfold Table.mention
  split
  · exact h
  · exact h.update hname hdefaults

theorem Table.Worded.mentionAll (h : table.Worded sort) (hnames : ∀ a ∈ names, sort a)
    (hdefaults : defaults.Worded sort) :
    Table.Worded sort (names.foldl (Table.mention · defaults) table) := by
  induction names generalizing table with
  | nil => exact h
  | cons name names ih =>
    obtain ⟨hname, hnames⟩ := List.forall_mem_cons.mp hnames
    exact ih (h.mention hname hdefaults) hnames

theorem Table.Worded.declaredFrom (h : table.Worded sort) (hdefaults : defaults.Worded sort)
    (hstatements : ∀ s ∈ statements, s.Worded sort)
    (hrun : declaredFrom table defaults statements = .ok table') : table'.Worded sort := by
  induction statements generalizing table defaults with
  | nil =>
    cases hrun
    exact h
  | cons s rest ih =>
    obtain ⟨hs, hrest⟩ := List.forall_mem_cons.mp hstatements
    match s with
    | .defaults .particle params => exact ih h (hdefaults.overlay hs) hrest hrun
    | .defaults .decay _ | .edge _ _ _ | .param _ _ => exact ih h hdefaults hrest hrun
    | .node name params =>
      obtain ⟨stated, hstated, hrun⟩ := exists_of_bind_eq_ok hrun
      have hown := hdefaults.overlay hs.2
      refine ih (h.enter hs.1 (fun type htype => ?_) (hown.without _)) hdefaults hrest hrun
      exact statedType_worded hown (htype ▸ hstated)

theorem Table.Worded.mentionedFrom (h : table.Worded sort) (hdefaults : defaults.Worded sort)
    (hstatements : ∀ s ∈ statements, s.Worded sort) :
    (mentionedFrom table defaults statements).Worded sort := by
  induction statements generalizing table defaults with
  | nil => exact h
  | cons s rest ih =>
    obtain ⟨hs, hrest⟩ := List.forall_mem_cons.mp hstatements
    match s with
    | .defaults .particle params => exact ih h (hdefaults.overlay hs) hrest
    | .defaults .decay _ | .node _ _ | .param _ _ => exact ih h hdefaults hrest
    | .edge source targets params =>
      exact ih (h.mentionAll (List.forall_mem_cons.mpr hs.1) hdefaults) hdefaults hrest

theorem edgesFrom_worded (hdefaults : defaults.Worded sort)
    (hstatements : ∀ s ∈ statements, s.Worded sort) :
    ∀ e ∈ edgesFrom defaults statements, e.params.Worded sort := by
  induction statements generalizing defaults with
  | nil => exact nofun
  | cons s rest ih =>
    obtain ⟨hs, hrest⟩ := List.forall_mem_cons.mp hstatements
    match s with
    | .defaults .decay params => exact ih (hdefaults.overlay hs) hrest
    | .defaults .particle _ | .node _ _ | .param _ _ => exact ih hdefaults hrest
    | .edge source targets params =>
      exact List.forall_mem_cons.mpr ⟨hdefaults.overlay hs.2, ih hdefaults hrest⟩

/-- What is built from tables of one sort is of that sort. -/
theorem Built.wordedAt {f : Forest} {names : Names} {edges : List Edge}
    (hb : Built f names table edges) (htable : table.Worded sort)
    (hedges : ∀ e ∈ edges, e.params.Worded sort) (x : ParticleId) : f.WordedAt sort x := by
  intro X hX
  obtain ⟨a, ha⟩ := hb.onto hX
  obtain ⟨X', hX', hentry, hdecays⟩ := hb.entry ha
  cases hX.symm.trans hX'
  obtain ⟨htype, hparams⟩ := htable a X.type X.params hentry
  refine ⟨htype, hparams, fun d hd D hD => ?_⟩
  obtain ⟨e, he, qs, n, -, hD'⟩ := exists_left_of_forall₂ hdecays hd
  cases hD.symm.trans hD'
  exact hedges e (List.mem_filter.mp he).1

theorem nodup_of_roots {f : Forest} {names : Names} {found : List ParticleId}
    (h : roots f names statements = .ok found) : found.Nodup := by
  obtain ⟨rs, -, hfound⟩ := exists_of_bind_eq_ok h
  cases hfound
  refine (eraseDups_pairwise_idxOf rs).imp fun hlt heq => ?_
  rw [heq] at hlt
  exact Nat.lt_irrefl _ hlt

theorem groupParams_worded (hstatements : ∀ s ∈ statements, s.Worded sort) :
    ∀ e ∈ (groupParams statements).entries, sort e.1 ∧ e.2.Worded sort ∧ e.2 ≠ .flag true ∧
      e.2.depth ≤ Grammar.maxListDepth := by
  intro e he
  obtain ⟨s, hs, hse⟩ := List.mem_filterMap.mp (ParamList.mem_ofEntries he)
  have hworded := hstatements s hs
  cases s <;> cases hse
  exact hworded

end Building

namespace Group

open Building Forest Grammar

variable {database : Database} {g : Group} {source : String}

/-! ### Groups of documents -/

/-- A group is of the sort that its statements are of. -/
theorem ofStatements_worded {statements : List Statement}
    (hstatements : ∀ s ∈ statements, s.Worded sort)
    (h : ofStatements database statements = .ok g) : g.Worded sort := by
  obtain ⟨names, table, htable, hb, hroots, hparams⟩ := ofStatements_eq_ok h
  have hempty : Table.Worded sort fun _ => none := nofun
  have hdeclared := hempty.declaredFrom ParamList.worded_empty hstatements htable
  have hknown := hdeclared.mentionedFrom ParamList.worded_empty hstatements
  obtain ⟨found, hfound, hrooted, -⟩ := hb.exists_roots statements
  cases hroots.symm.trans hfound
  exact {
    distinct := nodup_of_roots hroots
    rooted := hrooted
    below := fun r _ x _ => hb.wordedAt hknown (edgesFrom_worded ParamList.worded_empty hstatements) x
    params := hparams ▸ groupParams_worded hstatements }

/-- What is read can be written again. -/
theorem read_worded (h : Group.read database source = .ok g) : g.Worded Quotable := by
  obtain ⟨located, hread, hbuilt⟩ := read_eq_ok.mp h
  exact ofStatements_worded (List.forall_mem_map.mpr (Document.read_worded hread)) hbuilt

theorem arises_of_read (h : Group.read database source = .ok g) : g.forest.Arises := by
  obtain ⟨located, -, hbuilt⟩ := read_eq_ok.mp h
  exact .read hbuilt

/-- Each root of a group that is read has a tree, and it is not too high. -/
theorem exists_tree_of_read (h : Group.read database source = .ok g) :
    ∀ r ∈ g.roots, ∃ t, g.forest.Shows none t ∧ t.id = r ∧ g.forest.tree r = .ok t := by
  obtain ⟨located, -, hbuilt⟩ := read_eq_ok.mp h
  rw [ofStatements_eq] at hbuilt
  rcases build_cases database (located.map Located.value) with
    ⟨f, names, table, found, hrun, -, hb, hfound, -, -, -, hshallow⟩ | ⟨e, f, hrun, -⟩ <;>
    rw [hrun] at hbuilt <;> cases hbuilt
  intro r hr
  obtain ⟨found', hfound', hroots, -⟩ := hb.exists_roots (located.map Located.value)
  cases hfound.symm.trans hfound'
  obtain ⟨R, hR, hnone⟩ := hroots r hr
  obtain ⟨t, ht, rfl⟩ := hb.linked.exists_tree hR
  refine ⟨t, hnone ▸ ht, rfl, ?_⟩
  have hcheck := (hb.shallow_iff hfound).mp hshallow t.id hr
  rw [ht.checkDepth_eq hb.linked] at hcheck
  rw [ht.tree_eq hb.linked]
  split at hcheck
  · cases hcheck
  · next hheight => rw [if_neg hheight]

/-! ### What a group says -/

/-- A particle is in the tree of a root of a group. -/
def Holds (g : Group) (X : Particle) : Prop :=
  ∃ r ∈ g.roots, ∃ x, g.forest.Above r x ∧ g.forest.particle? x = some X

/-- A name or text stands in a group: it is a type, or in the parameters of a particle, of a decay or of
the group itself. -/
def Says (g : Group) (w : String) : Prop :=
  (∃ X, g.Holds X ∧ (w = X.type ∨ w ∈ Value.wordsIn X.params.entries ∨
    ∃ d ∈ X.decays, ∃ D, g.forest.decay? d = some D ∧ w ∈ Value.wordsIn D.params.entries)) ∨
  w ∈ Value.wordsIn g.params.entries

theorem mem_wordsIn {es : List (String × Value)} {w : String} :
    w ∈ Value.wordsIn es ↔ ∃ e ∈ es, w = e.1 ∨ w ∈ e.2.words := by
  induction es with
  | nil => exact iff_of_false nofun nofun
  | cons e es ih =>
    rcases e with ⟨key, v⟩
    rw [Value.wordsIn, List.mem_cons, List.mem_append, ih, List.exists_mem_cons_iff, or_assoc]

/-- A group is of another sort if what it says is. -/
theorem Worded.imp (h : g.Worded sort) (himp : ∀ w, g.Says w → sort w → sort' w) :
    g.Worded sort' := by
  have hgroup : ∀ e ∈ g.params.entries, ∀ w, w = e.1 ∨ w ∈ e.2.words → g.Says w := fun e he w hw =>
    .inr (mem_wordsIn.mpr ⟨e, he, hw⟩)
  refine { h with below := fun r hr x hx X hX => ?_, params := fun e he => ?_ }
  · have hsaid : ∀ w, (w = X.type ∨ w ∈ Value.wordsIn X.params.entries ∨ ∃ d ∈ X.decays, ∃ D,
        g.forest.decay? d = some D ∧ w ∈ Value.wordsIn D.params.entries) → g.Says w :=
      fun w hw => .inl ⟨X, ⟨r, hr, x, hx, hX⟩, hw⟩
    obtain ⟨htype, hparams, hdecays⟩ := h.below r hr x hx X hX
    refine ⟨himp _ (hsaid _ (.inl rfl)) htype, hparams.imp fun w hw => himp w (hsaid w (.inr (.inl hw))),
      fun d hd D hD => (hdecays d hd D hD).imp fun w hw => himp w ?_⟩
    exact hsaid w (.inr (.inr ⟨d, hd, D, hD, hw⟩))
  · obtain ⟨hkey, hv, hrest⟩ := h.params e he
    exact ⟨himp _ (hgroup e he _ (.inl rfl)) hkey,
      hv.imp _ fun w hw => himp w (hgroup e he w (.inr hw)), hrest⟩

end Group

end DecayForest
