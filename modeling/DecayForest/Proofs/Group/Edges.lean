import DecayForest.Group.Building
import Mathlib.Data.List.Chain
import Mathlib.Logic.Function.Basic
import Mathlib.Logic.Relation
/-!
# What statements say

A list of statements says two things about the forest of a document: what is known of each identifier
(`Building.Table`), and the decays between identifiers (`Building.Edge`). Both are computed here
without a forest. A document describes a forest if types are texts, no identifier is a target twice,
no identifier feeds itself, and chains of decays are short enough.
-/

namespace DecayForest.Building

/-- The type and the parameters of each identifier that is known. -/
abbrev Table := String → Option (String × ParamList)

/-- A decay between identifiers. -/
structure Edge where
  source : String
  targets : List String
  params : ParamList

/-- The parameters of the particle defaults in some statements, on top of others. -/
def particleDefaults (defaults : ParamList) (statements : List Statement) : ParamList :=
  statements.foldl (fun defaults s => match s with
    | .defaults .particle params => defaults.overlay params
    | _ => defaults) defaults

/-- What one more node statement adds to an identifier. -/
def Table.enter (table : Table) (name : String) (type : Option String) (params : ParamList) : Table :=
  Function.update table name <| some <|
    match table name with
    | some (known, own) => (type.getD known, own.overlay params)
    | none => (type.getD name, params)

/-- An identifier that a decay mentions is known from then on. -/
def Table.mention (table : Table) (defaults : ParamList) (name : String) : Table :=
  match table name with
  | some _ => table
  | none => Function.update table name (some (name, defaults))

/-- What the node statements say. -/
def declaredFrom (table : Table) (defaults : ParamList) : List Statement → Except ModelError Table
  | [] => .ok table
  | .defaults .particle params :: rest => declaredFrom table (defaults.overlay params) rest
  | .node name params :: rest => do
    let own := defaults.overlay params
    let type ← statedType own
    declaredFrom (table.enter name type (own.without ParamList.typeName)) defaults rest
  | .defaults .decay _ :: rest | .edge _ _ _ :: rest | .param _ _ :: rest =>
    declaredFrom table defaults rest

/-- What the decays add to that. -/
def mentionedFrom (table : Table) (defaults : ParamList) : List Statement → Table
  | [] => table
  | .defaults .particle params :: rest => mentionedFrom table (defaults.overlay params) rest
  | .edge source targets _ :: rest =>
    mentionedFrom ((source :: targets).foldl (Table.mention · defaults) table) defaults rest
  | .defaults .decay _ :: rest | .node _ _ :: rest | .param _ _ :: rest =>
    mentionedFrom table defaults rest

/-- The decays that statements describe. -/
def edgesFrom (defaults : ParamList) : List Statement → List Edge
  | [] => []
  | .defaults .decay params :: rest => edgesFrom (defaults.overlay params) rest
  | .edge source targets params :: rest =>
    ⟨source, targets, defaults.overlay params⟩ :: edgesFrom defaults rest
  | .defaults .particle _ :: rest | .node _ _ :: rest | .param _ _ :: rest =>
    edgesFrom defaults rest

/-- The targets of a statement. -/
def targets : Statement → List String
  | .edge _ targets _ => targets
  | _ => []

/-- A statement has `b` among the products of a decay of `a`. -/
def Feeds (statements : List Statement) (a b : String) : Prop :=
  ∃ targets params, .edge a targets params ∈ statements ∧ b ∈ targets

/-- A decay has `b` among the products of `a`. -/
def Leads (edges : List Edge) (a b : String) : Prop :=
  ∃ e ∈ edges, e.source = a ∧ b ∈ e.targets

/-- No node statement has a type that is no text. -/
def WellTyped (statements : List Statement) : Prop :=
  ∀ before name params after, statements = before ++ .node name params :: after →
    ∀ v, ((particleDefaults ∅ before).overlay params).value? ParamList.typeName = some v →
      ∃ type, v = .text type

/-- No identifier is a target twice. -/
def SingleTargets (statements : List Statement) : Prop :=
  (statements.flatMap targets).Nodup

/-- No identifier feeds itself, directly or through others. -/
def Acyclic (statements : List Statement) : Prop :=
  ∀ a, ¬ Relation.TransGen (Feeds statements) a a

/-- No chain of identifiers, each feeding the next, has more than `maxDepth` steps. -/
def Shallow (statements : List Statement) : Prop :=
  ∀ chain : List String, chain.IsChain (Feeds statements) → chain.length ≤ maxDepth + 1

variable {statements : List Statement} {defaults : ParamList} {table : Table} {a b : String}
  {edges : List Edge} {e : Edge}

theorem leads_edgesFrom : Leads (edgesFrom defaults statements) a b ↔ Feeds statements a b := by
  induction statements generalizing defaults with
  | nil => simp [Leads, Feeds, edgesFrom]
  | cons s rest ih =>
    have hskip : ∀ s : Statement, (∀ ts ps, s ≠ .edge a ts ps) →
        (Feeds (s :: rest) a b ↔ Feeds rest a b) := by
      intro s hs
      refine exists_congr fun ts => exists_congr fun ps => and_congr_left fun _ => ?_
      rw [List.mem_cons]
      exact or_iff_right fun h => hs ts ps h.symm
    match s with
    | .node name params => rw [edgesFrom, ih, hskip (.node name params) nofun]
    | .defaults .particle params => rw [edgesFrom, ih, hskip (.defaults .particle params) nofun]
    | .defaults .decay params => rw [edgesFrom, ih, hskip (.defaults .decay params) nofun]
    | .param name v => rw [edgesFrom, ih, hskip (.param name v) nofun]
    | .edge source ts params =>
      have hrest := @ih defaults
      simp only [Leads] at hrest
      simp only [edgesFrom, Leads, List.exists_mem_cons_iff, hrest]
      simp only [Feeds, List.mem_cons, Statement.edge.injEq]
      constructor
      · rintro (⟨rfl, hb⟩ | ⟨ts', ps', hmem, hb⟩)
        · exact ⟨ts, params, .inl ⟨rfl, rfl, rfl⟩, hb⟩
        · exact ⟨ts', ps', .inr hmem, hb⟩
      · rintro ⟨ts', ps', ⟨rfl, rfl, rfl⟩ | hmem, hb⟩
        · exact .inl ⟨rfl, hb⟩
        · exact .inr ⟨ts', ps', hmem, hb⟩

theorem targets_edgesFrom :
    (edgesFrom defaults statements).flatMap Edge.targets = statements.flatMap targets := by
  fun_induction edgesFrom defaults statements <;> simp_all [targets]

/-- More decays lead at least as far. -/
theorem Leads.append (h : Leads edges a b) (more : List Edge) : Leads (edges ++ more) a b := by
  obtain ⟨e, he, hsource, hb⟩ := h
  exact ⟨e, List.mem_append_left more he, hsource, hb⟩

/-! ### Types -/

/-- A type that is no text is told by its fault. -/
theorem statedType_cases (params : ParamList) :
    (∃ type, statedType params = .ok type ∧
      ∀ v, params.value? ParamList.typeName = some v → ∃ t, v = .text t) ∨
    (∃ shown, statedType params = .error (.typeNotText shown)) ∧
      ¬ ∀ v, params.value? ParamList.typeName = some v → ∃ t, v = .text t := by
  unfold statedType
  rcases params.value? ParamList.typeName with _ | v
  · exact .inl ⟨none, rfl, nofun⟩
  · cases v with
    | text s =>
      refine .inl ⟨some s, rfl, fun v hv => ?_⟩
      cases hv
      exact ⟨s, rfl⟩
    | flag on =>
      refine .inr ⟨⟨_, rfl⟩, fun h => ?_⟩
      obtain ⟨t, ht⟩ := h _ rfl
      cases ht
    | number x =>
      refine .inr ⟨⟨_, rfl⟩, fun h => ?_⟩
      obtain ⟨t, ht⟩ := h _ rfl
      cases ht
    | record es =>
      refine .inr ⟨⟨_, rfl⟩, fun h => ?_⟩
      obtain ⟨t, ht⟩ := h _ rfl
      cases ht

/-- All types of node statements are texts, with given defaults before the statements. -/
def TypedFrom (defaults : ParamList) (statements : List Statement) : Prop :=
  ∀ before name params after, statements = before ++ .node name params :: after →
    ∀ v, ((particleDefaults defaults before).overlay params).value? ParamList.typeName = some v →
      ∃ type, v = .text type

theorem typedFrom_cons {s : Statement} :
    TypedFrom defaults (s :: statements) ↔
      (∀ name params, s = .node name params →
        ∀ v, (defaults.overlay params).value? ParamList.typeName = some v → ∃ type, v = .text type) ∧
      TypedFrom (particleDefaults defaults [s]) statements := by
  constructor
  · intro h
    refine ⟨fun name params hs => h [] name params statements (by rw [hs]; rfl), ?_⟩
    intro before name params after heq v hv
    exact h (s :: before) name params after (by rw [heq]; rfl) v hv
  · rintro ⟨hs, hrest⟩ before name params after heq
    rcases before with _ | ⟨s', before⟩
    · obtain ⟨rfl, rfl⟩ := List.cons.inj heq
      exact hs name params rfl
    · obtain ⟨rfl, rfl⟩ := List.cons.inj heq
      exact hrest before name params after rfl

/-- The node statements are understood exactly if all types are texts. -/
theorem declaredFrom_cases (table : Table) (defaults : ParamList) (statements : List Statement) :
    (∃ table', declaredFrom table defaults statements = .ok table' ∧
      TypedFrom defaults statements) ∨
    (∃ shown, declaredFrom table defaults statements = .error (.typeNotText shown)) ∧
      ¬ TypedFrom defaults statements := by
  induction statements generalizing table defaults with
  | nil =>
    refine .inl ⟨table, rfl, fun before name params after heq => ?_⟩
    cases before <;> cases heq
  | cons s rest ih =>
    rw [typedFrom_cons]
    match s with
    | .defaults .particle params =>
      simpa [declaredFrom, particleDefaults] using ih table (defaults.overlay params)
    | .defaults .decay params => simpa [declaredFrom, particleDefaults] using ih table defaults
    | .edge source targets params => simpa [declaredFrom, particleDefaults] using ih table defaults
    | .param name v => simpa [declaredFrom, particleDefaults] using ih table defaults
    | .node name params =>
      rw [declaredFrom]
      rcases statedType_cases (defaults.overlay params) with ⟨type, htype, htext⟩ | ⟨⟨shown, htype⟩, htext⟩
      · rw [htype]
        have hs : ∀ name' params', Statement.node name params = .node name' params' →
            ∀ v, (defaults.overlay params').value? ParamList.typeName = some v →
              ∃ type, v = .text type := by
          rintro _ _ ⟨⟩
          exact htext
        rcases ih (table.enter name type ((defaults.overlay params).without ParamList.typeName))
          defaults with ⟨table', hrun, hrest⟩ | ⟨hrun, hrest⟩
        · exact .inl ⟨table', hrun, hs, hrest⟩
        · exact .inr ⟨hrun, fun h => hrest h.2⟩
      · rw [htype]
        exact .inr ⟨⟨shown, rfl⟩, fun h => htext (h.1 name params rfl)⟩

end DecayForest.Building
