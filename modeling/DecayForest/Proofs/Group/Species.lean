import DecayForest.Proofs.Group.Emission
import DecayForest.Proofs.Group.Scoping
/-!
# The type of a particle

The type of a particle stands in its entry of the forest, a look-up tells it, and the document of the group
states it. All of these agree unless the particle has a parameter that is called `type`. No particle gets
one from its node statements. One that only decays mention takes the particle defaults as they are, and a
type among them stays a parameter, which both the look-up and the document tell in place of the type
(`Group.ofStatements_species`).
-/

namespace DecayForest

namespace Building

/-- The type among the particle defaults where a decay first mentions an identifier, if no node statement
is about it. -/
def strayType? (statements : List Statement) (a : String) : Option Value :=
  if a ∈ statements.flatMap declared then none
  else (particleDefaults ∅ (statements.takeWhile fun s => a ∉ connected s)).value? ParamList.typeName

variable {statements : List Statement} {table : Table} {a type : String} {params : ParamList}

/-- What node statements say of a particle leaves no type among its parameters. -/
theorem value?_layered_without (lists : List ParamList) :
    (ParamList.layered (lists.map (·.without ParamList.typeName))).value? ParamList.typeName = none := by
  rw [ParamList.value?_layered, List.findSome?_eq_none_iff]
  intro l hl
  obtain ⟨l, -, rfl⟩ := List.mem_map.mp (List.mem_reverse.mp hl)
  rw [ParamList.value?_without, if_pos rfl]

/-- What comes before the first decay that mentions an identifier. -/
theorem exists_first_edge (ha : a ∈ statements.flatMap connected) : ∃ source targets own after,
    statements = (statements.takeWhile fun s => a ∉ connected s) ++ .edge source targets own :: after ∧
      a ∈ source :: targets := by
  induction statements with
  | nil => cases ha
  | cons s rest ih =>
    by_cases hs : a ∈ connected s
    · rw [List.takeWhile_cons_of_neg (by simpa using hs)]
      cases s with
      | edge source targets own => exact ⟨source, targets, own, rest, rfl, hs⟩
      | node | defaults | param => cases hs
    · rw [List.flatMap_cons, List.mem_append] at ha
      obtain ⟨source, targets, own, after, hrest, hmem⟩ := ih (ha.resolve_left hs)
      rw [List.takeWhile_cons_of_pos (by simpa using hs)]
      exact ⟨source, targets, own, after, congrArg (s :: ·) hrest, hmem⟩

/-- A particle has the type among its parameters that strayed there, and such a particle has its identifier
for a type. -/
theorem value?_of_known (htable : declaredFrom (fun _ => none) ∅ statements = .ok table)
    (ha : mentionedFrom table ∅ statements a = some (type, params)) :
    params.value? ParamList.typeName = strayType? statements a ∧
      (a ∉ statements.flatMap declared → type = a) := by
  by_cases hdeclared : a ∈ statements.flatMap declared
  · have hown := mentionedFrom_of_some (declaredFrom_of_declared htable hdeclared) ∅ statements
    cases hown.symm.trans ha
    rw [strayType?, if_pos hdeclared]
    exact ⟨value?_layered_without _, absurd hdeclared⟩
  · have hnone : table a = none := by
      rw [declaredFrom_eq htable, ownLists_eq_nil_iff.mpr hdeclared]
      rfl
    have hconnected : a ∈ statements.flatMap connected := by
      have hsome := isSome_mentionedFrom.mp (Option.isSome_iff_exists.mpr ⟨_, ha⟩)
      rw [hnone] at hsome
      exact hsome.resolve_left nofun
    obtain ⟨source, targets, own, after, hsplit, hmem⟩ := exists_first_edge hconnected
    have hfirst : a ∉ (statements.takeWhile fun s => a ∉ connected s).flatMap connected := fun hmem => by
      obtain ⟨s, hs, hmem⟩ := List.mem_flatMap.mp hmem
      exact of_decide_eq_true (List.all_eq_true.mp List.all_takeWhile s hs) hmem
    have hentry : mentionedFrom table ∅
        ((statements.takeWhile fun s => a ∉ connected s) ++ .edge source targets own :: after) a =
          some (a, particleDefaults ∅ (statements.takeWhile fun s => a ∉ connected s)) :=
      mentionedFrom_of_connected hnone hmem hfirst
    rw [← hsplit] at hentry
    cases hentry.symm.trans ha
    rw [strayType?, if_neg hdeclared]
    exact ⟨rfl, fun _ => rfl⟩

end Building

/-! ### What is told -/

/-- A text holds the statement of a particle, with some value for its type. -/
def Declares (text name : String) (v : Value) : Prop :=
  ∃ own first others before after, Writing.name name = .ok own ∧
    Writing.entries [(ParamList.typeName, v)] = .ok [first] ∧
    text = before ++ (own ++ Writing.bracketed (first :: others) ++ ";\n") ++ after

/-- What is told for the type of a particle: by a look-up that no database helps, by the text of each tree
that it is in, and by the document of the group. -/
structure Group.TellsType (g : Group) (p : ParticleId) (v : Value) : Prop where
  lookup : ({ g.forest with database := {} }).attributeOf p ParamList.typeName = .ok v
  inTree : ∀ r text, g.forest.Above r p → g.forest.written r = .ok text →
    Declares text (g.forest.called p) v
  inDocument : ∀ text, g.written = .ok text → Declares text (g.forest.called p) v

namespace Declares

variable {text name : String} {v : Value} {texts : List String}

theorem append (h : Declares text name v) (front back : String) :
    Declares (front ++ text ++ back) name v := by
  obtain ⟨own, first, others, before, after, hown, hfirst, rfl⟩ := h
  refine ⟨own, first, others, front ++ before, after ++ back, hown, hfirst, ?_⟩
  simp only [String.append_assoc]

theorem join (h : Declares text name v) (hmem : text ∈ texts) : Declares (String.join texts) name v := by
  obtain ⟨front, back, rfl⟩ := List.append_of_mem hmem
  rw [String.join_append, String.join_cons, ← String.append_assoc]
  exact h.append _ _

end Declares

theorem Writing.entries_cons {e : String × Value} {es : List (String × Value)} {list : List String}
    (h : entries (e :: es) = .ok list) :
    ∃ first others, entries [e] = .ok [first] ∧ list = first :: others := by
  rcases e with ⟨key, v⟩
  rw [entries] at h ⊢
  rcases hkey : name key with e | k <;> rw [hkey] at h
  · cases h
  dsimp only [bind, Except.bind] at h ⊢
  split at h
  · obtain ⟨others, -, h⟩ := exists_of_bind_eq_ok h
    cases h
    exact ⟨_, others, rfl, rfl⟩
  · rcases hv : value v with e | w <;> rw [hv] at h
    · cases h
    obtain ⟨others, -, h⟩ := exists_of_bind_eq_ok h
    cases h
    exact ⟨_, others, rfl, rfl⟩

namespace Forest

variable {f : Forest} {parent : Option ParticleId} {t : Tree} {x : ParticleId} {X : Particle} {text : String}

/-- The text of a tree has the statement of each of its particles. -/
theorem Shows.declares (h : f.Shows parent t) (hw : Writing.tree f t = .ok text) (hx : x ∈ t.ids)
    (hX : f.particle? x = some X) :
    Declares text (f.called x) ((X.params.value? ParamList.typeName).getD (.text X.type)) := by
  induction t using Tree.induction generalizing parent text with
  | node id type params branches ih =>
    rw [Writing.tree] at hw
    obtain ⟨below, hbelow, hw⟩ := exists_of_bind_eq_ok hw
    obtain ⟨own, hown, hw⟩ := exists_of_bind_eq_ok hw
    obtain ⟨list, hlist, hw⟩ := exists_of_bind_eq_ok hw
    obtain ⟨decays, -, hw⟩ := exists_of_bind_eq_ok hw
    cases hw
    rcases mem_ids_cases hx with rfl | ⟨u, hu, hxu⟩
    · obtain ⟨n, hid⟩ := h.particle?_node
      cases hid.symm.trans hX
      rw [Writing.identifier_of_some hX] at hown
      obtain ⟨first, others, hfirst, rfl⟩ := Writing.entries_cons hlist
      refine ⟨own, first, others, below, String.join decays, hown, hfirst, ?_⟩
      simp only [String.append_assoc]
    · obtain ⟨texts, hall, rfl⟩ := Writing.belowAll_eq_ok hbelow
      obtain ⟨b, hb, hub⟩ := Tree.mem_children.mp hu
      obtain ⟨below, hbelow, hwu⟩ := exists_right_of_forall₂ hall hu
      have hdeclares := (ih b hb u hub (h.product hb hub) hwu hxu).join hbelow
      have happend := hdeclares.append "" (own ++ (Writing.bracketed list ++ (";\n" ++ String.join decays)))
      simpa only [String.append_assoc, String.empty_append] using happend

theorem Linked.declares_written {r : ParticleId} (hf : Linked f) (hr : f.Above r x)
    (hX : f.particle? x = some X) (hw : f.written r = .ok text) :
    Declares text (f.called x) ((X.params.value? ParamList.typeName).getD (.text X.type)) := by
  obtain ⟨R, hR⟩ := hf.live_of_above hr hX
  obtain ⟨t, ht, rfl, -, -, hw⟩ := hf.exists_tree_of_written hR hw
  exact ht.declares hw ((ht.mem_ids_iff hf).mpr hr) hX

theorem attributeOf_typeName (hX : f.particle? x = some X) :
    ({ f with database := {} }).attributeOf x ParamList.typeName =
      .ok ((X.params.value? ParamList.typeName).getD (.text X.type)) := by
  have hX' : ({ f with database := {} } : Forest).particle? x = some X := hX
  rw [attributeOf, particle_of_some hX']
  rcases htype : X.params.value? ParamList.typeName with _ | v
  · show _ = Except.ok (Value.text X.type)
    dsimp only [bind, Except.bind]
    rw [htype]
    rfl
  · dsimp only [bind, Except.bind]
    rw [htype]
    rfl

end Forest

open Building Forest

/-- The types that a group tells for its particles. -/
theorem Group.tellsType {g : Group} {x : ParticleId} {X : Particle} (hf : Linked g.forest)
    (hX : g.forest.particle? x = some X) (hroot : ∃ r ∈ g.roots, g.forest.Above r x) :
    g.TellsType x ((X.params.value? ParamList.typeName).getD (.text X.type)) where
  lookup := attributeOf_typeName hX
  inTree _ _ hr hw := hf.declares_written hr hX hw
  inDocument text hw := by
    obtain ⟨trees, htrees, hw⟩ := exists_of_bind_eq_ok hw
    obtain ⟨params, -, hw⟩ := exists_of_bind_eq_ok hw
    cases hw
    obtain ⟨r, hr, habove⟩ := hroot
    obtain ⟨tree, htree, hwritten⟩ := exists_right_of_forall₂ (forall₂_of_mapM_eq_ok htrees) hr
    have happend := ((hf.declares_written habove hX hwritten).join htree).append "" (String.join params)
    rwa [String.empty_append] at happend

/-- In a group that is built from statements, the parameters of a particle have no type, and the look-up and
the document tell the type of the particle, unless a type strayed to the particle from the particle defaults.
In that case both tell the one that strayed, and the type of the particle is its identifier. -/
theorem Group.ofStatements_species {database : Database} {statements : List Statement} {g : Group}
    (h : ofStatements database statements = .ok g) :
    ∃ particle : String → ParticleId, Set.BijOn particle {a | a ∈ statements.flatMap mentioned}
        {p | ∃ P, g.forest.particle? p = some P} ∧
      ∀ a ∈ statements.flatMap mentioned, ∃ P, g.forest.particle? (particle a) = some P ∧
        P.params.value? ParamList.typeName = strayType? statements a ∧
        (strayType? statements a = none → g.TellsType (particle a) (.text P.type)) ∧
        ∀ v, strayType? statements a = some v → P.type = a ∧ g.TellsType (particle a) v := by
  obtain ⟨names, table, htable, hb, hfound, -⟩ := ofStatements_eq_ok h
  have hparticles := hb.bijOn_particle
  simp only [isSome_of_declaredFrom htable] at hparticles
  refine ⟨names.particle, hparticles, fun a ha => ?_⟩
  obtain ⟨entry, hentry⟩ := Option.isSome_iff_exists.mp ((isSome_of_declaredFrom htable).mpr ha)
  obtain ⟨p, hp⟩ := hb.known hentry
  obtain ⟨P, hP, hknown, -⟩ := hb.entry hp
  obtain ⟨htype, hname⟩ := value?_of_known htable hknown
  obtain ⟨found, hfound', -, hroots⟩ := hb.exists_roots statements
  cases hfound.symm.trans hfound'
  have htells := Group.tellsType hb.linked hP (hroots a ha p hp)
  rw [htype] at htells
  rw [(lookup_eq_some_iff ⟨p, hp⟩).mp hp]
  refine ⟨P, hP, htype, fun hnone => ?_, fun v hv => ⟨hname fun hdeclared => ?_, ?_⟩⟩
  · rwa [hnone] at htells
  · rw [strayType?, if_pos hdeclared] at hv
    cases hv
  · rwa [hv] at htells

/-- A type in the particle defaults strays to the particles that only decays mention, and hides their own. -/
theorem Group.typeOfDefaults_strays :
    ∃ g P, ofStatements {} [.defaults .particle (.ofEntries [("type", .text "X")]),
        .edge "A" ["B"] ∅] = .ok g ∧
      g.forest.particle? ⟨0, 0⟩ = some P ∧ P.type = "A" ∧
      P.params.value? ParamList.typeName = some (.text "X") ∧
      g.forest.attributeOf ⟨0, 0⟩ "type" = .ok (.text "X") ∧
      g.written = .ok "B_1[type=X];\nA_0[type=X];\nA_0 -> \x7b B_1 \x7d;\n" :=
  ⟨_, _, ofStatements_of_build (on_build_eq_ok.mpr
    ⟨_, _, _, rfl, rfl, rfl, List.forall_mem_singleton.mpr rfl⟩), rfl, rfl, rfl, rfl, rfl⟩

/-- Only the second of three particles has a type that strayed to it. -/
def threeTypes : List Statement :=
  [.defaults .particle (.ofEntries [("type", .text "X")]), .edge "A" ["B", "C"] ∅,
    .node "A" (.ofEntries [("m", .present)]), .node "C" (.ofEntries [("type", .text "D")])]

theorem Group.ofStatements_species_threeTypes :
    ∃ g, ofStatements {} threeTypes = .ok g ∧ strayType? threeTypes "A" = none ∧
      strayType? threeTypes "B" = some (.text "X") ∧
      ∃ particle : String → ParticleId, Set.BijOn particle {a | a ∈ threeTypes.flatMap mentioned}
          {p | ∃ P, g.forest.particle? p = some P} ∧
        ∀ a ∈ threeTypes.flatMap mentioned, ∃ P, g.forest.particle? (particle a) = some P ∧
          P.params.value? ParamList.typeName = strayType? threeTypes a ∧
          (strayType? threeTypes a = none → g.TellsType (particle a) (.text P.type)) ∧
          ∀ v, strayType? threeTypes a = some v → P.type = a ∧ g.TellsType (particle a) v := by
  have hbuilt : (ofStatements {} threeTypes).toOption.isSome := by decide +kernel
  rcases hg : ofStatements {} threeTypes with e | g <;> rw [hg] at hbuilt
  · cases hbuilt
  · exact ⟨g, rfl, rfl, rfl, ofStatements_species hg⟩

end DecayForest
