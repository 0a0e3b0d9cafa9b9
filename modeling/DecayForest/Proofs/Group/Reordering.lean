import DecayForest.Proofs.Group.Contents
/-!
# Statements in another order

The first pass reads node statements and particle defaults only, the second all but node statements.
So it does not matter where node statements stand among decays: as long as each pass reads the same
statements in the same order, the group is the same, but for the order of its roots
(`ofStatements_reordered`). That order goes by first mentions, so it may change.
-/

namespace DecayForest

namespace Building

open Forest Edit

variable {f g : Forest} {names : Names} {s t : List Statement} {found : List ParticleId}
  {r : ParticleId} {a : String}

/-! ### What each pass reads -/

/-- The first pass reads a statement. -/
def declares : Statement → Bool
  | .node _ _ | .defaults .particle _ => true
  | .defaults .decay _ | .edge _ _ _ | .param _ _ => false

/-- The second pass reads a statement, or it is a parameter of the group. -/
def connects : Statement → Bool
  | .node _ _ => false
  | .edge _ _ _ | .defaults _ _ | .param _ _ => true

theorem declareAll_filter (names : Names) (defaults : ParamList) (s : List Statement) :
    declareAll names defaults (s.filter declares) = declareAll names defaults s := by
  induction s generalizing names defaults with
  | nil => rfl
  | cons statement rest ih =>
    match statement with
    | .defaults .particle params => exact ih names (defaults.overlay params)
    | .defaults .decay _ | .edge _ _ _ | .param _ _ => exact ih names defaults
    | .node name params =>
      rw [List.filter_cons_of_pos rfl, declareAll, declareAll]
      exact congrArg _ (funext fun names => ih names defaults)

theorem connectAll_filter (names : Names) (particles decays : ParamList) (s : List Statement) :
    connectAll names particles decays (s.filter connects) = connectAll names particles decays s := by
  induction s generalizing names particles decays with
  | nil => rfl
  | cons statement rest ih =>
    match statement with
    | .defaults .particle params => exact ih names (particles.overlay params) decays
    | .defaults .decay params => exact ih names particles (decays.overlay params)
    | .node _ _ | .param _ _ => exact ih names particles decays
    | .edge source targets params =>
      rw [List.filter_cons_of_pos rfl]
      simp only [connectAll, ih]

theorem groupParams_filter (s : List Statement) : groupParams (s.filter connects) = groupParams s := by
  rw [groupParams, groupParams, List.filterMap_filter]
  congr 2
  funext statement
  cases statement <;> rfl

/-- What a list of statements mentions is mentioned in a statement that one of the passes reads. -/
theorem mem_mentioned_iff : a ∈ s.flatMap mentioned ↔
    a ∈ (s.filter declares).flatMap mentioned ∨ a ∈ (s.filter connects).flatMap mentioned := by
  have hread : ∀ statement : Statement, declares statement ∨ connects statement := by
    intro statement
    cases statement with
    | node => exact .inl rfl
    | edge | defaults | param => exact .inr rfl
  simp only [List.mem_flatMap, List.mem_filter]
  constructor
  · rintro ⟨statement, hs, ha⟩
    exact (hread statement).imp (fun h => ⟨statement, ⟨hs, h⟩, ha⟩) fun h => ⟨statement, ⟨hs, h⟩, ha⟩
  · rintro (⟨statement, ⟨hs, -⟩, ha⟩ | ⟨statement, ⟨hs, -⟩, ha⟩) <;> exact ⟨statement, hs, ha⟩

/-! ### The roots -/

theorem mem_roots (h : roots f names s = .ok found) : r ∈ found ↔
    ∃ a ∈ s.flatMap mentioned, ∃ p, names.lookup a = some p ∧ f.rootOf p = .ok r := by
  obtain ⟨rs, hrs, hfound⟩ := exists_of_bind_eq_ok h
  cases hfound
  have hall := forall₂_of_mapM_eq_ok hrs
  rw [List.mem_eraseDups]
  constructor
  · intro hr
    obtain ⟨p, hp, hpr⟩ := exists_left_of_forall₂ hall hr
    obtain ⟨a, ha, hap⟩ := List.mem_filterMap.mp hp
    exact ⟨a, ha, p, hap, hpr⟩
  · rintro ⟨a, ha, p, hap, hpr⟩
    obtain ⟨r', hr', hpr'⟩ := exists_right_of_forall₂ hall (List.mem_filterMap.mpr ⟨a, ha, hap⟩)
    cases hpr.symm.trans hpr'
    exact hr'

/-- The roots go by what is mentioned, and only their order by where. -/
theorem roots_perm (hsame : ∀ a, a ∈ t.flatMap mentioned ↔ a ∈ s.flatMap mentioned)
    (h : roots f names s = .ok found) :
    ∃ found', roots f names t = .ok found' ∧ found'.Perm found := by
  obtain ⟨rs, hrs, -⟩ := exists_of_bind_eq_ok h
  have hfound : ∀ p ∈ (t.flatMap mentioned).filterMap fun name => names.lookup name,
      ∃ r, f.rootOf p = .ok r := by
    intro p hp
    obtain ⟨a, ha, hap⟩ := List.mem_filterMap.mp hp
    obtain ⟨r, -, hr⟩ := exists_right_of_forall₂ (forall₂_of_mapM_eq_ok hrs)
      (List.mem_filterMap.mpr ⟨a, (hsame a).mp ha, hap⟩)
    exact ⟨r, hr⟩
  obtain ⟨rs', hrs', -⟩ := mapM_eq_ok hfound
  have ht : roots f names t = .ok rs'.eraseDups := by
    rw [roots, hrs']
    rfl
  refine ⟨_, ht, (List.perm_ext_iff_of_nodup (nodup_of_roots ht) (nodup_of_roots h)).mpr fun r => ?_⟩
  rw [mem_roots ht, mem_roots h]
  simp only [hsame]

/-! ### The passes together -/

/-- Both passes go alike over statements that they read alike, and the same depths are checked. -/
theorem build_reordered (hdeclares : s.filter declares = t.filter declares)
    (hconnects : s.filter connects = t.filter connects) (h : (build s).on f = (.ok found, g)) :
    ∃ found', (build t).on f = (.ok found', g) ∧ found'.Perm found := by
  obtain ⟨f₁, names₁, names₂, hdeclare, hconnect, hroots, hcheck⟩ := on_build_eq_ok.mp h
  rw [← declareAll_filter, hdeclares, declareAll_filter] at hdeclare
  rw [← connectAll_filter, hconnects, connectAll_filter] at hconnect
  obtain ⟨found', hroots', hperm⟩ := roots_perm (t := t) (fun a => by
    rw [mem_mentioned_iff (s := t), mem_mentioned_iff (s := s), hdeclares, hconnects]) hroots
  exact ⟨found', on_build_eq_ok.mpr ⟨f₁, names₁, names₂, hdeclare, hconnect, hroots',
    fun r hr => hcheck r (hperm.subset hr)⟩, hperm⟩

end Building

namespace Group

open Building

variable {database : Database} {s t : List Statement} {g : Group}

private theorem exists_reordered (hdeclares : s.filter declares = t.filter declares)
    (hconnects : s.filter connects = t.filter connects) (h : ofStatements database s = .ok g) :
    ∃ g', ofStatements database t = .ok g' ∧ g'.forest = g.forest ∧ g'.params = g.params ∧
      g'.roots.Perm g.roots := by
  rw [ofStatements_eq] at h ⊢
  rcases hrun : (build s).on { database } with ⟨e | found, f⟩ <;> rw [hrun] at h <;> cases h
  obtain ⟨found', hrun', hperm⟩ := build_reordered hdeclares hconnects hrun
  rw [hrun']
  refine ⟨_, rfl, rfl, ?_, hperm⟩
  show groupParams t = groupParams s
  rw [← groupParams_filter, ← hconnects, groupParams_filter]

/-- It does not matter where node statements stand among the others. Two lists with the same node
statements and particle defaults in the same order, and with the same decays, defaults and parameters
in the same order, are both accepted or both refused, and their groups are the same up to the order of
the roots. -/
theorem ofStatements_reordered (database : Database) (s t : List Statement)
    (hdeclares : s.filter declares = t.filter declares)
    (hconnects : s.filter connects = t.filter connects) :
    ((∃ g, ofStatements database s = .ok g) ↔ ∃ g, ofStatements database t = .ok g) ∧
    ∀ g g', ofStatements database s = .ok g → ofStatements database t = .ok g' →
      g'.forest = g.forest ∧ g'.params = g.params ∧ g'.roots.Perm g.roots := by
  refine ⟨⟨fun ⟨g, hg⟩ => ?_, fun ⟨g, hg⟩ => ?_⟩, fun g g' hg hg' => ?_⟩
  · obtain ⟨g', hg', -⟩ := exists_reordered hdeclares hconnects hg
    exact ⟨g', hg'⟩
  · obtain ⟨g', hg', -⟩ := exists_reordered hdeclares.symm hconnects.symm hg
    exact ⟨g', hg'⟩
  · obtain ⟨g'', hg'', hsame⟩ := exists_reordered hdeclares hconnects hg
    cases hg'.symm.trans hg''
    exact hsame

/-- Two trees change places with the statements that mention them first. -/
theorem ofStatements_reordered_roots :
    ∃ g g', ofStatements {} [.node "a" ∅, .edge "b" ["c"] ∅] = .ok g ∧
      ofStatements {} [.edge "b" ["c"] ∅, .node "a" ∅] = .ok g' ∧ g'.forest = g.forest ∧
      g.roots = [⟨0, 0⟩, ⟨1, 0⟩] ∧ g'.roots = [⟨1, 0⟩, ⟨0, 0⟩] := by
  have hroots : (ofStatements {} [.node "a" ∅, .edge "b" ["c"] ∅]).toOption.map Group.roots =
      some [⟨0, 0⟩, ⟨1, 0⟩] := by decide +kernel
  have hroots' : (ofStatements {} [.edge "b" ["c"] ∅, .node "a" ∅]).toOption.map Group.roots =
      some [⟨1, 0⟩, ⟨0, 0⟩] := by decide +kernel
  have hsame := (ofStatements_reordered {} [.node "a" ∅, .edge "b" ["c"] ∅]
    [.edge "b" ["c"] ∅, .node "a" ∅] rfl rfl).2
  rcases hg : ofStatements {} [.node "a" ∅, .edge "b" ["c"] ∅] with e | g
  · rw [hg] at hroots
    cases hroots
  rcases hg' : ofStatements {} [.edge "b" ["c"] ∅, .node "a" ∅] with e | g'
  · rw [hg'] at hroots'
    cases hroots'
  rw [hg] at hroots
  rw [hg'] at hroots'
  exact ⟨g, g', rfl, rfl, (hsame g g' hg hg').1, Option.some.inj hroots, Option.some.inj hroots'⟩

end Group

end DecayForest
