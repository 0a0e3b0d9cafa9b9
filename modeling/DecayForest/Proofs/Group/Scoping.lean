import DecayForest.Proofs.Group.Correspondence
import DecayForest.Proofs.Params
import Mathlib.Data.List.Infix
/-!
# The scope of defaults

A default counts for the statements behind it and for no other. So what a statement says depends on the
defaults before it only, and what stands behind the last statement about a particle does not change the
particle (`Group.Scoped`). The passes carry the defaults along as they go; `Group.ofStatements_scoped`
tells what has become of them without the passes, by what stands before a statement.
-/

namespace DecayForest

namespace Building

/-- The parameters of the decay defaults in some statements, on top of others. -/
def decayDefaults (defaults : ParamList) (statements : List Statement) : ParamList :=
  statements.foldl (fun defaults s => match s with
    | .defaults .decay params => defaults.overlay params
    | _ => defaults) defaults

/-- Each statement of a list with those before it. -/
def inPlace (statements : List Statement) : List (List Statement × Statement) :=
  statements.inits.zip statements

/-- The list of a node statement about an identifier, on top of the particle defaults before it. -/
def ownList? (defaults : ParamList) (name : String) : List Statement × Statement → Option ParamList
  | (before, .node other params) =>
    if other = name then some ((particleDefaults defaults before).overlay params) else none
  | (_, .edge _ _ _) | (_, .defaults _ _) | (_, .param _ _) => none

/-- The lists of all node statements about an identifier, in order, with given defaults before the
statements. -/
def ownLists (defaults : ParamList) (statements : List Statement) (name : String) : List ParamList :=
  (inPlace statements).filterMap (ownList? defaults name)

/-- The type in a list. -/
def typeIn? (params : ParamList) : Option String :=
  (params.value? ParamList.typeName).bind Value.text?

/-- The last type in some lists. -/
def lastType? (lists : List ParamList) : Option String :=
  (lists.filterMap typeIn?).getLast?

/-- A statement describes a decay. -/
def isEdge : Statement → Bool
  | .edge _ _ _ => true
  | .node _ _ | .defaults _ _ | .param _ _ => false

variable {statements before after : List Statement} {defaults : ParamList} {table table' : Table}
  {a name source : String} {targets : List String} {params own : ParamList} {type : Option String}
  {lists : List ParamList} {s : Statement}

/-! ### Statements in their places -/

theorem inPlace_cons (s : Statement) (rest : List Statement) :
    inPlace (s :: rest) = ([], s) :: (inPlace rest).map (Prod.map (s :: ·) id) := by
  rw [inPlace, List.inits_cons, List.zip_cons_cons, List.zip_map_left]
  rfl

theorem ownLists_cons (defaults : ParamList) (s : Statement) (rest : List Statement) (name : String) :
    ownLists defaults (s :: rest) name =
      (ownList? defaults name ([], s)).toList ++ ownLists (particleDefaults defaults [s]) rest name := by
  have hrest : ownList? defaults name ∘ Prod.map (s :: ·) id =
      ownList? (particleDefaults defaults [s]) name := by
    funext ⟨before, t⟩
    cases t <;> rfl
  rw [ownLists, inPlace_cons, List.filterMap_cons, List.filterMap_map, hrest]
  cases ownList? defaults name ([], s) <;> rfl

theorem ownLists_append (defaults : ParamList) (before after : List Statement) (name : String) :
    ownLists defaults (before ++ after) name =
      ownLists defaults before name ++ ownLists (particleDefaults defaults before) after name := by
  induction before generalizing defaults with
  | nil => rfl
  | cons s before ih => rw [List.cons_append, ownLists_cons, ih, ownLists_cons, List.append_assoc]; rfl

theorem ownLists_eq_nil_iff :
    ownLists defaults statements name = [] ↔ name ∉ statements.flatMap declared := by
  induction statements generalizing defaults with
  | nil => exact iff_of_true rfl List.not_mem_nil
  | cons s rest ih =>
    rw [ownLists_cons, List.append_eq_nil_iff, ih, List.flatMap_cons, List.mem_append, not_or]
    refine and_congr_left fun _ => ?_
    cases s with
    | node other params =>
      rw [ownList?, declared, List.mem_singleton]
      by_cases hname : other = name <;> simp [hname, eq_comm (a := name)]
    | edge | defaults | param => exact iff_of_true rfl List.not_mem_nil

/-! ### Node statements -/

theorem statedType_eq_ok (h : statedType params = .ok type) : type = typeIn? params := by
  unfold statedType at h
  unfold typeIn?
  split at h
  · next hnone => cases h; rw [hnone]; rfl
  · next htext => cases h; rw [htext]; rfl
  · cases h

/-- What is known of an identifier after one more list. -/
def entered (name : String) (known : Option (String × ParamList)) (l : ParamList) :
    Option (String × ParamList) :=
  let own := l.without ParamList.typeName
  match known with
  | some (type, params) => some ((typeIn? l).getD type, params.overlay own)
  | none => some ((typeIn? l).getD name, own)

/-- What the node statements say of an identifier is in its own lists. -/
theorem declaredFrom_eq (h : declaredFrom table defaults statements = .ok table') (a : String) :
    table' a = (ownLists defaults statements a).foldl (entered a) (table a) := by
  induction statements generalizing table defaults with
  | nil => cases h; rfl
  | cons s rest ih =>
    match s with
    | .defaults .particle _ | .defaults .decay _ | .edge _ _ _ | .param _ _ =>
      rw [ownLists_cons]
      exact ih h
    | .node name params =>
      obtain ⟨type, htype, hrest⟩ := exists_of_bind_eq_ok h
      rw [ih hrest, ownLists_cons, List.foldl_append, statedType_eq_ok htype, ownList?]
      refine congrArg (List.foldl (entered a) · (ownLists defaults rest a)) ?_
      by_cases hname : name = a
      · subst hname
        rw [if_pos rfl, Table.enter, Function.update_self]
        show _ = entered name (table name) (defaults.overlay params)
        cases table name <;> rfl
      · rw [if_neg hname, Table.enter, Function.update_of_ne (Ne.symm hname)]
        rfl

theorem foldl_entered (hne : lists ≠ []) :
    lists.foldl (entered a) none = some ((lastType? lists).getD a,
      .layered (lists.map (·.without ParamList.typeName))) := by
  induction lists using List.reverseRecOn with
  | nil => exact absurd rfl hne
  | append_singleton lists l ih =>
    have htype : lastType? (lists ++ [l]) = (typeIn? l).or (lastType? lists) := by
      rw [lastType?, List.filterMap_append]
      cases htype : typeIn? l with
      | none => simp [htype, lastType?]
      | some type => simp [htype]
    rw [List.foldl_append, htype, Option.getD_or, List.map_append, List.map_singleton]
    by_cases hlists : lists = []
    · subst hlists
      show entered a none l = _
      rw [List.map_nil, List.nil_append, ParamList.layered_singleton]
      rfl
    · rw [ih hlists, ParamList.layered_concat]
      rfl

/-- An identifier with node statements is known for their lists. -/
theorem declaredFrom_of_declared (h : declaredFrom (fun _ => none) ∅ statements = .ok table)
    (ha : a ∈ statements.flatMap declared) :
    table a = some ((lastType? (ownLists ∅ statements a)).getD a,
      .layered ((ownLists ∅ statements a).map (·.without ParamList.typeName))) := by
  rw [declaredFrom_eq h]
  exact foldl_entered fun hnil => ownLists_eq_nil_iff.mp hnil ha

/-! ### Edge statements -/

theorem mention_of_ne (hname : a ≠ name) : table.mention defaults name a = table a := by
  unfold Table.mention
  cases table name with
  | none => exact Function.update_of_ne hname ..
  | some => rfl

theorem foldl_mention_of_mem {names : List String} (ha : a ∈ names) (hnone : table a = none) :
    names.foldl (Table.mention · defaults) table a = some (a, defaults) := by
  induction names generalizing table with
  | nil => cases ha
  | cons name names ih =>
    rw [List.foldl_cons]
    by_cases hname : a = name
    · subst hname
      refine foldl_mention_of_some ?_ defaults names
      rw [Table.mention, hnone]
      exact Function.update_self ..
    · exact ih ((List.mem_cons.mp ha).resolve_left hname) ((mention_of_ne hname).trans hnone)

/-- What the second pass makes known it takes from the defaults before the first edge statement about
it. -/
theorem mentionedFrom_of_connected (hnone : table a = none) (ha : a ∈ source :: targets)
    (hbefore : a ∉ before.flatMap connected) :
    mentionedFrom table defaults (before ++ .edge source targets own :: after) a =
      some (a, particleDefaults defaults before) := by
  induction before generalizing table defaults with
  | nil => exact mentionedFrom_of_some (foldl_mention_of_mem ha hnone) defaults after
  | cons s before ih =>
    rw [List.flatMap_cons, List.mem_append, not_or] at hbefore
    match s with
    | .defaults .particle params => exact ih hnone hbefore.2
    | .defaults .decay _ | .node _ _ | .param _ _ => exact ih hnone hbefore.2
    | .edge source' targets' params =>
      refine ih (Option.not_isSome_iff_eq_none.mp fun h => ?_) hbefore.2
      rcases isSome_foldl_mention.mp h with hsome | hmem
      · rw [hnone] at hsome
        cases hsome
      · exact hbefore.1 hmem

theorem edgesFrom_append (defaults : ParamList) (before after : List Statement) :
    edgesFrom defaults (before ++ after) =
      edgesFrom defaults before ++ edgesFrom (decayDefaults defaults before) after := by
  induction before generalizing defaults with
  | nil => rfl
  | cons s before ih =>
    match s with
    | .defaults .decay params => exact ih (defaults.overlay params)
    | .defaults .particle _ | .node _ _ | .param _ _ => exact ih defaults
    | .edge source targets params => exact congrArg (_ :: ·) (ih defaults)

theorem length_edgesFrom : (edgesFrom defaults statements).length = statements.countP isEdge := by
  induction statements generalizing defaults with
  | nil => rfl
  | cons s rest ih =>
    match s with
    | .defaults .decay _ | .defaults .particle _ | .node _ _ | .param _ _ =>
      exact ih.trans (List.countP_cons_of_neg Bool.false_ne_true).symm
    | .edge source targets params =>
      rw [List.countP_cons_of_pos rfl]
      exact congrArg Nat.succ ih

end Building

open Building Forest

/-- Each default has reached what stands behind it, and nothing else. `particle` tells the particle of
each identifier, and `decays` those of the edge statements in order. -/
structure Group.Scoped (g : Group) (statements : List Statement) (particle : String → ParticleId)
    (decays : List DecayId) : Prop where
  /-- The particles are the identifiers of node and edge statements, one to one. -/
  particles : Set.BijOn particle {a | a ∈ statements.flatMap mentioned}
    {p | ∃ P, g.forest.particle? p = some P}
  /-- A particle with node statements has what these state, the later on top of the earlier, and each
  on top of the particle defaults before it. Its type is the last one among them, or its identifier.
  Whatever stands behind the last of its node statements does not matter. -/
  declared : ∀ {before after a}, statements = before ++ after → a ∈ before.flatMap declared →
    a ∉ after.flatMap declared → ∃ P, g.forest.particle? (particle a) = some P ∧
      P.type = (lastType? (ownLists ∅ before a)).getD a ∧
      P.params = .layered ((ownLists ∅ before a).map (·.without ParamList.typeName))
  /-- Any other particle has its identifier for a type, and the particle defaults before the first edge
  statement about it. -/
  connected : ∀ {before source targets own after a},
    statements = before ++ .edge source targets own :: after → a ∈ source :: targets →
    a ∉ before.flatMap connected → a ∉ statements.flatMap Building.declared →
    ∃ P, g.forest.particle? (particle a) = some P ∧ P.type = a ∧
      P.params = particleDefaults ∅ before
  /-- The decays are the edge statements, one to one and in order. -/
  decaysOnce : decays.Nodup
  allDecays : ∀ d, (∃ D, g.forest.decay? d = some D) ↔ d ∈ decays
  decayCount : decays.length = statements.countP isEdge
  /-- A decay has the list of its statement on top of the decay defaults before it. -/
  decays : ∀ {before source targets own after},
    statements = before ++ .edge source targets own :: after →
    ∃ d serial, decays[before.countP isEdge]? = some d ∧ g.forest.decay? d =
      some ⟨targets.map particle, (decayDefaults ∅ before).overlay own, some (particle source), serial⟩

/-- In a group that is built from statements, each default counts for the statements behind it and for no
other. -/
theorem Group.ofStatements_scoped {database : Database} {statements : List Statement} {g : Group}
    (h : ofStatements database statements = .ok g) :
    ∃ particle decays, g.Scoped statements particle decays := by
  obtain ⟨names, table, htable, hb, -, -⟩ := ofStatements_eq_ok h
  obtain ⟨decays, hedges, hnodup, hall, -⟩ := hb.exists_decays
  have hknown : ∀ {a entry}, mentionedFrom table ∅ statements a = some entry →
      ∃ P, g.forest.particle? (names.particle a) = some P ∧ (P.type, P.params) = entry := by
    intro a entry ha
    obtain ⟨p, hp⟩ := hb.known ha
    obtain ⟨P, hP, hentry, -⟩ := hb.entry hp
    rw [(lookup_eq_some_iff ⟨p, hp⟩).mp hp]
    exact ⟨P, hP, Option.some.inj (hentry.symm.trans ha)⟩
  refine ⟨names.particle, decays, ?_⟩
  constructor
  case particles =>
    have hparticles := hb.bijOn_particle
    simp only [isSome_of_declaredFrom htable] at hparticles
    exact hparticles
  case declared =>
    rintro before after a rfl ha hafter
    have hown := declaredFrom_of_declared htable (a := a) <| by
      rw [List.flatMap_append]
      exact List.mem_append_left _ ha
    -- what stands behind adds no list
    rw [ownLists_append, ownLists_eq_nil_iff.mpr hafter, List.append_nil] at hown
    obtain ⟨P, hP, hentry⟩ := hknown (mentionedFrom_of_some hown ∅ (before ++ after))
    obtain ⟨htype, hparams⟩ := Prod.mk.inj hentry
    exact ⟨P, hP, htype, hparams⟩
  case connected =>
    rintro before source targets own after a rfl ha hbefore hundeclared
    have hnone : table a = none := by
      rw [declaredFrom_eq htable, ownLists_eq_nil_iff.mpr hundeclared]
      rfl
    obtain ⟨P, hP, hentry⟩ := hknown (mentionedFrom_of_connected hnone ha hbefore)
    obtain ⟨htype, hparams⟩ := Prod.mk.inj hentry
    exact ⟨P, hP, htype, hparams⟩
  case decaysOnce => exact hnodup
  case allDecays =>
    refine fun d => ⟨fun ⟨D, hD⟩ => hall d D hD, fun hd => ?_⟩
    obtain ⟨e, -, serial, he⟩ := exists_left_of_forall₂ hedges hd
    exact ⟨_, he⟩
  case decayCount => rw [← hedges.length_eq, length_edgesFrom]
  case decays =>
    rintro before source targets own after rfl
    rw [edgesFrom_append, edgesFrom] at hedges
    obtain ⟨ds, ds', hds, hrest, rfl⟩ := exists_append_of_forall₂ hedges
    cases hrest with
    | @cons _ d _ ds' hd _ =>
      obtain ⟨serial, hd⟩ := hd
      refine ⟨d, serial, ?_, hd⟩
      rw [← length_edgesFrom, hds.length_eq, List.getElem?_append_right (Nat.le_refl _), Nat.sub_self,
        List.getElem?_cons_zero]

/-- A particle that is stated again while the defaults change, and one that only decays mention. -/
def statedAgain : List Statement :=
  [.edge "a" ["b"] ∅, .defaults .particle (.ofEntries [("m", .text "1")]),
    .node "a" (.ofEntries [("type", .text "A")]), .defaults .particle (.ofEntries [("m", .text "2")]),
    .defaults .decay (.ofEntries [("k", .present)]), .node "a" (.ofEntries [("x", .present)]),
    .edge "b" ["c"] ∅, .defaults .particle (.ofEntries [("m", .text "3"), ("type", .text "Z")]),
    .param "n" .present]

theorem Group.ofStatements_scoped_statedAgain :
    ∃ g, ofStatements {} statedAgain = .ok g ∧ g.roots = [⟨0, 0⟩] ∧
      ∃ particle decays, g.Scoped statedAgain particle decays := by
  have hbuilt : (ofStatements {} statedAgain).toOption.map Group.roots = some [⟨0, 0⟩] := by
    decide +kernel
  rcases hg : ofStatements {} statedAgain with e | g <;> rw [hg] at hbuilt
  · cases hbuilt
  · exact ⟨g, rfl, Option.some.inj hbuilt, ofStatements_scoped hg⟩

end DecayForest
