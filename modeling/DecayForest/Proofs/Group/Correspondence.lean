import DecayForest.Proofs.Forest.Views
import DecayForest.Proofs.Group.Acceptance
import Mathlib.Algebra.GroupWithZero.Nat
import Mathlib.Data.Set.Function
/-!
# What a group has of its document

A group that is built from statements has exactly what they say. Its particles are their identifiers, its
decays are their edges, and its roots are the particles without a parent, in the order in which the
document comes to their trees (`Group.Mirrors`, `Group.ofStatements_mirrors`). What the two passes have
put into the forest is known from `Building.Built`; the roots are found afterwards, by going up from all
that is mentioned.
-/

namespace DecayForest

namespace Building

variable {table table' : Table} {defaults : ParamList} {statements : List Statement} {a name : String}
  {entry : String × ParamList}

/-! ### What is known in the end -/

theorem isSome_enter {type : Option String} {params : ParamList} :
    (table.enter name type params a).isSome ↔ (table a).isSome ∨ a = name := by
  unfold Table.enter
  by_cases ha : a = name <;> simp [ha]

theorem isSome_mention : (table.mention defaults name a).isSome ↔ (table a).isSome ∨ a = name := by
  unfold Table.mention
  rcases hname : table name with _ | entry
  · by_cases ha : a = name <;> simp [ha]
  · refine (or_iff_left_of_imp ?_).symm
    rintro rfl
    show (table a).isSome
    rw [hname]
    rfl

theorem isSome_foldl_mention {names : List String} :
    (names.foldl (Table.mention · defaults) table a).isSome ↔ (table a).isSome ∨ a ∈ names := by
  induction names generalizing table with
  | nil => simp
  | cons name names ih => rw [List.foldl_cons, ih, isSome_mention, List.mem_cons, or_assoc]

/-- The identifiers of the node statements. -/
def declared : Statement → List String
  | .node name _ => [name]
  | _ => []

/-- The identifiers of the edge statements. -/
def connected : Statement → List String
  | .edge source targets _ => source :: targets
  | _ => []

theorem isSome_declaredFrom (h : declaredFrom table defaults statements = .ok table') :
    (table' a).isSome ↔ (table a).isSome ∨ a ∈ statements.flatMap declared := by
  induction statements generalizing table defaults with
  | nil => cases h; simp
  | cons s rest ih =>
    rw [List.flatMap_cons]
    match s with
    | .defaults .particle _ | .defaults .decay _ | .edge _ _ _ | .param _ _ => exact ih h
    | .node name params =>
      obtain ⟨type, -, hrest⟩ := exists_of_bind_eq_ok h
      rw [ih hrest, isSome_enter, List.mem_append, or_assoc]
      simp [declared]

theorem isSome_mentionedFrom :
    (mentionedFrom table defaults statements a).isSome ↔
      (table a).isSome ∨ a ∈ statements.flatMap connected := by
  induction statements generalizing table defaults with
  | nil => simp [mentionedFrom]
  | cons s rest ih =>
    rw [List.flatMap_cons]
    match s with
    | .defaults .particle _ | .defaults .decay _ | .node _ _ | .param _ _ => exact ih
    | .edge source targets params =>
      rw [mentionedFrom, ih, isSome_foldl_mention, List.mem_append, or_assoc]
      rfl

theorem mention_of_some (htable : table name = some entry) (defaults : ParamList) (other : String) :
    table.mention defaults other name = some entry := by
  unfold Table.mention
  rcases hother : table other with _ | known
  · have hne : name ≠ other := by
      rintro rfl
      cases hother.symm.trans htable
    exact (Function.update_of_ne hne _ table).trans htable
  · exact htable

theorem foldl_mention_of_some (htable : table name = some entry) (defaults : ParamList)
    (names : List String) : names.foldl (Table.mention · defaults) table name = some entry := by
  induction names generalizing table with
  | nil => exact htable
  | cons other names ih => exact ih (mention_of_some htable defaults other)

/-- Decays add nothing to what is known. -/
theorem mentionedFrom_of_some (htable : table name = some entry) (defaults : ParamList)
    (statements : List Statement) : mentionedFrom table defaults statements name = some entry := by
  induction statements generalizing table defaults with
  | nil => exact htable
  | cons s rest ih =>
    match s with
    | .defaults .particle params => exact ih htable (defaults.overlay params)
    | .defaults .decay _ | .node _ _ | .param _ _ => exact ih htable defaults
    | .edge source targets params =>
      exact ih (foldl_mention_of_some htable defaults (source :: targets)) defaults

/-- Known are exactly the identifiers that statements mention. -/
theorem isSome_of_declaredFrom (h : declaredFrom (fun _ => none) defaults statements = .ok table) :
    (mentionedFrom table defaults statements a).isSome ↔ a ∈ statements.flatMap mentioned := by
  rw [isSome_mentionedFrom, isSome_declaredFrom h]
  simp only [List.mem_flatMap, Option.isSome_none, Bool.false_eq_true, false_or, ← exists_or,
    ← and_or_left]
  refine exists_congr fun s => and_congr_right fun _ => ?_
  cases s <;> simp [declared, connected, mentioned]

/-! ### Particles and decays -/

/-- The particle of an identifier. -/
def Names.particle (names : Names) (name : String) : ParticleId :=
  (names.lookup name).getD ⟨0, 0⟩

variable {f : Forest} {names : Names} {found : List ParticleId} {p : ParticleId}

theorem lookup_eq_some_iff (h : ∃ q, names.lookup a = some q) :
    names.lookup a = some p ↔ names.particle a = p := by
  obtain ⟨q, hq⟩ := h
  simp [Names.particle, hq]

/-- `d` is the decay of an edge, from its source to its targets in order. -/
def Matches (f : Forest) (particle : String → ParticleId) (e : Edge) (d : DecayId) : Prop :=
  ∃ serial, f.decay? d = some ⟨e.targets.map particle, e.params, some (particle e.source), serial⟩

/-- The decays of the particle of an identifier. -/
def decaysOf (f : Forest) (names : Names) (name : String) : List DecayId :=
  (((names.lookup name).bind f.particle?).map Particle.decays).getD []

theorem decaysOf_of_some {P : Particle} (ha : names.lookup a = some p)
    (hP : f.particle? p = some P) : decaysOf f names a = P.decays := by
  simp only [decaysOf, ha, Option.bind_some, hP, Option.map_some, Option.getD_some]

theorem decaysOf_of_none (ha : names.lookup a = none) : decaysOf f names a = [] := by
  simp only [decaysOf, ha, Option.bind_none, Option.map_none, Option.getD_none]

/-- The roots are what is above the particles that are mentioned, in the order of the mentions. -/
theorem exists_found (hfound : roots f names statements = .ok found)
    (hmentioned : ∀ a ∈ statements.flatMap mentioned, ∃ p, names.lookup a = some p) :
    ∃ rs, List.Forall₂ (fun a r => f.rootOf (names.particle a) = .ok r)
      (statements.flatMap mentioned) rs ∧ found = rs.eraseDups := by
  have hids : ((statements.flatMap mentioned).filterMap fun name => names.lookup name) =
      (statements.flatMap mentioned).map names.particle := by
    rw [← List.filterMap_eq_map]
    refine List.filterMap_congr fun a ha => ?_
    exact (lookup_eq_some_iff (hmentioned a ha)).mpr rfl
  rw [roots, hids] at hfound
  obtain ⟨rs, hrs, hfound⟩ := exists_of_bind_eq_ok hfound
  cases hfound
  exact ⟨rs, List.forall₂_map_left_iff.mp (forall₂_of_mapM_eq_ok hrs), rfl⟩

namespace Built

open Forest

variable {edges : List Edge} (hb : Built f names table edges)
include hb

/-- The particles are the identifiers that are known, one to one. -/
theorem bijOn_particle :
    Set.BijOn names.particle {a | (table a).isSome} {p | ∃ P, f.particle? p = some P} := by
  have hknown : ∀ {a}, (table a).isSome → ∃ p, names.lookup a = some p := fun ha =>
    (Option.isSome_iff_exists.mp ha).elim fun _ => hb.known
  refine ⟨fun a ha => ?_, fun a ha b hb' hab => ?_, fun p ⟨P, hP⟩ => ?_⟩
  · obtain ⟨p, hp⟩ := hknown ha
    exact hb.live ((lookup_eq_some_iff ⟨p, hp⟩).mpr rfl)
  · exact hb.injective ((lookup_eq_some_iff (hknown ha)).mpr hab)
      ((lookup_eq_some_iff (hknown hb')).mpr rfl)
  · obtain ⟨a, ha⟩ := hb.onto hP
    obtain ⟨P', -, htable, -⟩ := hb.entry ha
    exact ⟨a, Option.isSome_iff_exists.mpr ⟨_, htable⟩, (lookup_eq_some_iff ⟨p, ha⟩).mp ha⟩

/-- What an identifier has for decays are its edges in order. -/
theorem forall₂_decaysOf (a : String) :
    List.Forall₂ (Matches f names.particle) (edges.filter (·.source = a)) (decaysOf f names a) := by
  rcases ha : names.lookup a with _ | p
  · rw [decaysOf_of_none ha, hb.filter_source_eq_nil ha]
    exact .nil
  · obtain ⟨P, hP, -, hdecays⟩ := hb.entry ha
    rw [decaysOf_of_some ha hP]
    refine forall₂_imp_of_mem hdecays fun e he d _ ⟨qs, serial, hqs, hd⟩ => ⟨serial, ?_⟩
    obtain rfl : e.source = a := of_decide_eq_true (List.mem_filter.mp he).2
    rw [hd, eq_map_of_lookups hqs, (lookup_eq_some_iff ⟨p, ha⟩).mp ha]
    rfl

theorem nodup_decaysOf (a : String) : (decaysOf f names a).Nodup := by
  rcases ha : names.lookup a with _ | p
  · rw [decaysOf_of_none ha]
    exact .nil
  · obtain ⟨P, hP, -⟩ := hb.entry ha
    rw [decaysOf_of_some ha hP]
    exact hb.linked.listedOnce hP

/-- A decay belongs to the particle that it has for its parent. -/
theorem exists_parent_of_mem_decaysOf {d : DecayId} (hd : d ∈ decaysOf f names a) :
    ∃ p D, names.lookup a = some p ∧ f.decay? d = some D ∧ D.parent = some p := by
  rcases ha : names.lookup a with _ | p
  · cases decaysOf_of_none ha ▸ hd
  · obtain ⟨P, hP, -⟩ := hb.entry ha
    obtain ⟨D, hD, hp⟩ := hb.linked.listed hP (decaysOf_of_some ha hP ▸ hd)
    exact ⟨p, D, rfl, hD, hp⟩

/-- The decays are the edges, one to one, and each particle has its own in their order. -/
theorem exists_decays :
    ∃ ds, List.Forall₂ (Matches f names.particle) edges ds ∧ ds.Nodup ∧
      (∀ d D, f.decay? d = some D → d ∈ ds) ∧
      ∀ a P, (table a).isSome → f.particle? (names.particle a) = some P →
        P.decays = ((edges.zip ds).filter (·.1.source = a)).map Prod.snd := by
  have hone : ∀ a b d, d ∈ decaysOf f names a → d ∈ decaysOf f names b → a = b := by
    intro a b d hda hdb
    obtain ⟨p, D, ha, hD, hp⟩ := hb.exists_parent_of_mem_decaysOf hda
    obtain ⟨q, D', hb', hD', hq⟩ := hb.exists_parent_of_mem_decaysOf hdb
    cases hD.symm.trans hD'
    cases hp.symm.trans hq
    exact hb.injective ha hb'
  obtain ⟨ds, hds, hnodup, hzip⟩ := exists_undealt hb.forall₂_decaysOf hb.nodup_decaysOf hone
  refine ⟨ds, hds.imp fun e d => And.left, hnodup, fun d D hD => ?_, fun a P ha hP => ?_⟩
  · obtain ⟨p, hp⟩ := hb.owned hD
    obtain ⟨P, hP, hd⟩ := hb.linked.owner hD hp
    obtain ⟨a, ha⟩ := hb.onto hP
    rw [← decaysOf_of_some ha hP, ← hzip a] at hd
    obtain ⟨⟨e, d'⟩, hed, rfl⟩ := List.mem_map.mp hd
    exact (List.of_mem_zip (List.mem_filter.mp hed).1).2
  · obtain ⟨entry, hentry⟩ := Option.isSome_iff_exists.mp ha
    rw [hzip, decaysOf_of_some ((lookup_eq_some_iff (hb.known hentry)).mpr rfl) hP]

end Built

end Building

/-! ### Roots -/

namespace Forest

/-- The place among some identifiers of the first whose particle is in the tree of a root. -/
def firstMention (f : Forest) (particle : String → ParticleId) (mentions : List String)
    (root : ParticleId) : Nat :=
  mentions.findIdx fun a => particle a ∈ f.preorder root

end Forest

open Building Forest

/-- A group has exactly what statements say. `particle` tells the particle of each identifier, and
`decays` those of the edges. -/
structure Group.Mirrors (g : Group) (statements : List Statement) (particle : String → ParticleId)
    (decays : List DecayId) : Prop where
  /-- The particles are the identifiers of node and edge statements, one to one. -/
  particles : Set.BijOn particle {a | a ∈ statements.flatMap mentioned}
    {p | ∃ P, g.forest.particle? p = some P}
  /-- The decays are the edge statements, one to one, each from its source to its targets in order. -/
  edges : List.Forall₂ (Matches g.forest particle) (edgesFrom ∅ statements) decays
  decaysOnce : decays.Nodup
  allDecays : ∀ d D, g.forest.decay? d = some D → d ∈ decays
  /-- The decays of a particle are its edge statements in the order of the document. -/
  ownDecays : ∀ a ∈ statements.flatMap mentioned, ∀ P, g.forest.particle? (particle a) = some P →
    P.decays = (((edgesFrom ∅ statements).zip decays).filter (·.1.source = a)).map Prod.snd
  /-- The roots are the particles without a parent. -/
  roots : ∀ r, r ∈ g.roots ↔ ∃ R, g.forest.particle? r = some R ∧ R.parent = none
  rootsOnce : g.roots.Nodup
  /-- Roots come in the order in which their trees are first mentioned. -/
  rootOrder : g.roots.Pairwise fun r r' =>
    g.forest.firstMention particle (statements.flatMap mentioned) r <
      g.forest.firstMention particle (statements.flatMap mentioned) r'
  /-- A particle is in the tree of one root, and of no other. -/
  oneTree : ∀ p P, g.forest.particle? p = some P → ∃! r, r ∈ g.roots ∧ p ∈ g.forest.preorder r
  /-- All trees together have as many particles as the group. -/
  counted : (g.roots.map fun r => (g.forest.preorder r).length).sum = g.forest.particleCount

namespace Building.Built

variable {f : Forest} {names : Names} {table : Table} {edges : List Edge} {found : List ParticleId}
  {statements : List Statement} {r : ParticleId} (hb : Built f names table edges)
  (hfound : roots f names statements = .ok found)
  (hmentioned : ∀ a, a ∈ statements.flatMap mentioned ↔ ∃ p, names.lookup a = some p)
include hb hfound hmentioned

theorem mem_found_iff : r ∈ found ↔ ∃ R, f.particle? r = some R ∧ R.parent = none := by
  obtain ⟨found', hfound', hroots, habove⟩ := hb.exists_roots statements
  cases hfound.symm.trans hfound'
  constructor
  · exact hroots r
  · rintro ⟨R, hR, hnone⟩
    obtain ⟨a, ha⟩ := hb.onto hR
    obtain ⟨r', hr', hr⟩ := habove a ((hmentioned a).mpr ⟨r, ha⟩) r ha
    cases hr.eq_of_root ((parent_eq_none_iff hR).mp hnone)
    exact hr'

/-- What is found first is mentioned first. -/
theorem pairwise_firstMention : found.Pairwise fun r r' =>
    f.firstMention names.particle (statements.flatMap mentioned) r <
      f.firstMention names.particle (statements.flatMap mentioned) r' := by
  have hroot := fun r => hb.mem_found_iff (r := r) hfound hmentioned
  obtain ⟨rs, hrs, rfl⟩ := exists_found hfound fun a => (hmentioned a).mp
  -- a mention leads to a root exactly if it falls into the tree of the root
  have hplace : ∀ r ∈ rs.eraseDups,
      rs.idxOf r = f.firstMention names.particle (statements.flatMap mentioned) r := by
    intro r hr
    obtain ⟨R, hR, hnone⟩ := (hroot r).mp hr
    refine idxOf_eq_findIdx (forall₂_imp_of_mem hrs fun a ha r' _ har => ?_)
    obtain ⟨p, hp⟩ := (hmentioned a).mp ha
    obtain ⟨P, hP⟩ := hb.live hp
    rw [(lookup_eq_some_iff ⟨p, hp⟩).mp hp] at har ⊢
    rw [decide_eq_true_eq, (hb.linked.mem_preorder hR).1, ← hb.linked.rootOf_eq_iff hP hR hnone, har,
      Except.ok.injEq]
  refine (eraseDups_pairwise_idxOf rs).imp_of_mem fun {r r'} hr hr' h => ?_
  rwa [hplace r hr, hplace r' hr'] at h

theorem existsUnique_root {p : ParticleId} {P : Particle} (hP : f.particle? p = some P) :
    ∃! r, r ∈ found ∧ p ∈ f.preorder r := by
  have hroot := fun r => hb.mem_found_iff (r := r) hfound hmentioned
  obtain ⟨r, R, hr, habove, hR, hnone⟩ := hb.linked.rootOf_eq hP
  refine ⟨r, ⟨(hroot r).mpr ⟨R, hR, hnone⟩, ((hb.linked.mem_preorder hR).1 p).mpr habove⟩, ?_⟩
  rintro r' ⟨hr', hp⟩
  obtain ⟨R', hR', hnone'⟩ := (hroot r').mp hr'
  have habove' := ((hb.linked.mem_preorder hR').1 p).mp hp
  cases hr.symm.trans ((hb.linked.rootOf_eq_iff hP hR' hnone').mpr habove')
  rfl

theorem sum_preorder (hnodup : found.Nodup) :
    (found.map fun r => (f.preorder r).length).sum = f.particleCount := by
  have hroot := fun r => hb.mem_found_iff (r := r) hfound hmentioned
  have hunique := fun p P => hb.existsUnique_root hfound hmentioned (p := p) (P := P)
  rw [← List.length_flatMap]
  refine length_eq_particleCount (List.nodup_flatMap.mpr ⟨fun r hr => ?_, ?_⟩) fun p => ?_
  · obtain ⟨R, hR, -⟩ := (hroot r).mp hr
    exact (hb.linked.mem_preorder hR).2
  · refine hnodup.imp_of_mem fun {r r'} hr hr' hne p hp hp' => ?_
    obtain ⟨R, hR, -⟩ := (hroot r).mp hr
    obtain ⟨P, hP⟩ := (((hb.linked.mem_preorder hR).1 p).mp hp).live hR
    exact hne ((hunique p P hP).unique ⟨hr, hp⟩ ⟨hr', hp'⟩)
  · rw [List.mem_flatMap]
    constructor
    · rintro ⟨r, hr, hp⟩
      obtain ⟨R, hR, -⟩ := (hroot r).mp hr
      exact (((hb.linked.mem_preorder hR).1 p).mp hp).live hR
    · rintro ⟨P, hP⟩
      exact (hunique p P hP).exists

end Building.Built

/-- A group that is built from statements has what they say and nothing else, and its roots are in the
order in which the document comes to their trees. -/
theorem Group.ofStatements_mirrors {database : Database} {statements : List Statement} {g : Group}
    (h : ofStatements database statements = .ok g) :
    ∃ particle decays, g.Mirrors statements particle decays := by
  obtain ⟨names, table, htable, hb, hfound, -⟩ := ofStatements_eq_ok h
  have hknown : ∀ a, a ∈ statements.flatMap mentioned ↔ ((mentionedFrom table ∅ statements) a).isSome :=
    fun a => (isSome_of_declaredFrom htable).symm
  have hmentioned : ∀ a, a ∈ statements.flatMap mentioned ↔ ∃ p, names.lookup a = some p := by
    intro a
    rw [hknown, Option.isSome_iff_exists]
    constructor
    · rintro ⟨entry, hentry⟩
      exact hb.known hentry
    · rintro ⟨p, hp⟩
      obtain ⟨P, -, hentry, -⟩ := hb.entry hp
      exact ⟨_, hentry⟩
  obtain ⟨decays, hedges, hnodup, hall, hown⟩ := hb.exists_decays
  have horder := hb.pairwise_firstMention hfound hmentioned
  have honce : g.roots.Nodup := horder.imp fun hlt heq => by
    rw [heq] at hlt
    exact Nat.lt_irrefl _ hlt
  exact ⟨names.particle, decays, {
    particles := by
      simp only [hknown]
      exact hb.bijOn_particle
    edges := hedges
    decaysOnce := hnodup
    allDecays := hall
    ownDecays := fun a ha P hP => hown a P ((hknown a).mp ha) hP
    roots := fun r => hb.mem_found_iff hfound hmentioned
    rootsOnce := honce
    rootOrder := horder
    oneTree := fun p P hP => hb.existsUnique_root hfound hmentioned hP
    counted := hb.sum_preorder hfound hmentioned honce }⟩

/-- Two trees in turns. The one that is met first has the later particle on top. -/
def twoTreesInTurns : List Statement :=
  [.edge "b" ["c"] ∅, .node "x" ∅, .edge "a" ["b", "d"] ∅, .edge "x" ["y"] ∅, .edge "b" ["e"] ∅]

theorem Group.ofStatements_mirrors_twoTreesInTurns :
    ∃ g, ofStatements {} twoTreesInTurns = .ok g ∧ g.roots = [⟨3, 0⟩, ⟨0, 0⟩] ∧
      ∃ particle decays, g.Mirrors twoTreesInTurns particle decays := by
  have hbuilt : (ofStatements {} twoTreesInTurns).toOption.map Group.roots = some [⟨3, 0⟩, ⟨0, 0⟩] := by
    decide +kernel
  rcases hg : ofStatements {} twoTreesInTurns with e | g <;> rw [hg] at hbuilt
  · cases hbuilt
  · exact ⟨g, rfl, Option.some.inj hbuilt, ofStatements_mirrors hg⟩

end DecayForest
