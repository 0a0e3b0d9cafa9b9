import DecayForest.Proofs.Group.Contents
/-!
# Documents that are written again

A group that comes from a document is written as a text again. That text is a document too, as long as
what is written is seen and types are texts, and there is anything to be written at all
(`Group.reads_again`). Where no name stands, there is no statement, and the text is refused.
-/

namespace DecayForest.Group

open Building Forest Grammar

variable {database : Database} {source text : String} {g : Group} {ts : List Tree}

/-- Nothing is written for a group without content. -/
theorem written_nil (hroots : g.roots = []) (hparams : g.params = ∅) : g.written = .ok "" := by
  unfold written
  rw [hroots, hparams]
  rfl

/-- A document has a statement. -/
theorem read_empty (database : Database) : Group.read database "" =
    .error (.malformed ⟨⟨1, 1⟩, .statement, "end of input"⟩) :=
  rfl

/-- What a group that is read has for particles is in its trees. -/
theorem exists_trees_of_read (hg : Group.read database source = .ok g)
    (hseen : g.Seen) (htext : g.written = .ok text) :
    ∃ ts : List Tree, List.Forall₂ (fun r t => g.forest.Shows none t ∧ t.id = r ∧
      t.height ≤ maxDepth) g.roots ts ∧
      Spelled (g.forest.document (ts.flatMap Tree.postorder) g.params) text := by
  obtain ⟨ts, hts, hspelled⟩ := exists_trees (arises_of_read hg).linked hseen htext
  exact ⟨ts, hts.imp fun r t h => ⟨h.1, h.2.1, h.2.2.1⟩, hspelled⟩

/-- The trees of a group that is read can be written one after the other, if types are texts. -/
theorem portion_of_read (hg : Group.read database source = .ok g)
    (htyped : ∀ X v, g.Holds X → X.params.value? ParamList.typeName = some v →
      ∃ type, v = .text type)
    (hts : List.Forall₂ (fun r t => g.forest.Shows none t ∧ t.id = r ∧ t.height ≤ maxDepth)
      g.roots ts) :
    g.forest.Portion (ts.flatMap Tree.postorder) := by
  have hroot : ∀ t ∈ ts, t.id ∈ g.roots ∧ g.forest.Shows none t := by
    intro t ht
    obtain ⟨r, hr, hshows, rfl, -⟩ := exists_left_of_forall₂ hts ht
    exact ⟨hr, hshows⟩
  refine portion_of_trees (arises_of_read hg).linked (arises_of_read hg).serials
    (fun t ht => ⟨none, (hroot t ht).2⟩)
    (pairwise_apart (read_worded hg).distinct (hts.imp fun r t h => ⟨h.1, h.2.1⟩))
    fun t ht x X v hx hX hv => ?_
  exact htyped X v ⟨t.id, (hroot t ht).1, x, hx, hX⟩ hv

/-- What is written for the group of a document is a document, if no name or text in it opens a comment where
it stands without quotes, no name that opens a line opens a block comment behind a keyword, types are texts,
and the group has any content. Without content nothing is written, and the empty text is refused for want of
a statement. -/
theorem reads_again (database database' : Database) (hg : Group.read database source = .ok g)
    (htext : g.written = .ok text) (hshown : ∀ w, g.Says w → Shown w)
    (hnames : (∀ X, g.Holds X → isBlocked X.type = false) ∧
      ∀ e ∈ g.params.entries, isBlocked e.1 = false)
    (htyped : ∀ X v, g.Holds X → X.params.value? ParamList.typeName = some v →
      ∃ type, v = .text type) :
    (g.roots ≠ [] ∨ g.params ≠ ∅ → ∃ g', Group.read database' text = .ok g') ∧
    (g.roots = [] → g.params = ∅ → text = "" ∧ Group.read database' text =
      .error (.malformed ⟨⟨1, 1⟩, .statement, "end of input"⟩)) := by
  have hseen : g.Seen := {
    toWorded := (read_worded hg).imp fun w hw _ => hshown w hw
    types := fun r hr x X hx hX => hnames.1 X ⟨r, hr, x, hx, hX⟩
    keys := hnames.2 }
  constructor
  · intro hcontent
    obtain ⟨ts, hts, hspelled⟩ := exists_trees_of_read hg hseen htext
    have hshows : ∀ t ∈ ts, (∃ parent, g.forest.Shows parent t) ∧ t.height ≤ maxDepth := by
      intro t ht
      obtain ⟨r, -, ht, -, hheight⟩ := exists_left_of_forall₂ hts ht
      exact ⟨⟨none, ht⟩, hheight⟩
    have hne : ts ≠ [] ∨ g.params ≠ ∅ := by
      refine hcontent.imp_left fun hne hnil => hne ?_
      rw [hnil] at hts
      exact List.forall₂_nil_right_iff.mp hts
    obtain ⟨g', hg'⟩ := (portion_of_read hg htyped hts).exists_ofStatements database' g.params rfl
      (fun t ht => (hshows t ht).1) fun t ht => (hshows t ht).2
    exact ⟨g', read_spelled hspelled (document_ne_nil (fun t ht => (hshows t ht).1) hne) hg'⟩
  · intro hroots hparams
    cases htext.symm.trans (written_nil hroots hparams)
    exact ⟨rfl, read_empty database'⟩

/-- A decay from a document in which a default states the type of both particles. In a name of it a comment
opens behind a keyword. -/
def typedByDefault : Group where
  forest := Operation.addDecay ⟨0, 0⟩ [⟨1, 0⟩] ∅ |>.after <|
    Operation.addParticle "B" (.ofEntries [("type", .text "decay/*q")]) |>.after <|
    Operation.addParticle "particle//x" (.ofEntries [("type", .text "decay/*q")]) |>.after {}
  roots := [⟨0, 0⟩]

theorem read_typedByDefault :
    Group.read {} "particle[type=decay/*q]; particle//x -> \x7b B \x7d" = .ok typedByDefault :=
  read_eq_ok.mpr ⟨[⟨⟨1, 1⟩, .defaults .particle (.ofEntries [("type", .text "decay/*q")])⟩,
    ⟨⟨1, 26⟩, .edge "particle//x" ["B"] ∅⟩], rfl, ofStatements_of_build rfl⟩

theorem holds_typedByDefault {X : Particle} (h : typedByDefault.Holds X) :
    X = ⟨"particle//x", .ofEntries [("type", .text "decay/*q")], none, [⟨0, 0⟩], 0⟩ ∨
      X = ⟨"B", .ofEntries [("type", .text "decay/*q")], some ⟨0, 0⟩, [], 1⟩ := by
  obtain ⟨r, -, x, -, hX⟩ := h
  rcases x with ⟨⟨_ | _ | n, _ | m⟩⟩
  · exact .inl (Option.some.inj hX).symm
  · cases hX
  · exact .inr (Option.some.inj hX).symm
  · cases hX
  · cases hX
  · cases hX

theorem reads_again_typedByDefault : ∃ g', Group.read {} ("B_1[type=decay/*q];\n" ++
    "particle//x_0[type=decay/*q];\nparticle//x_0 -> \x7b B_1 \x7d;\n") = .ok g' := by
  have hshown : ∀ w, typedByDefault.Says w → Shown w := by
    have hlisted : ∀ w ∈ Value.wordsIn [("type", .text "decay/*q")], Shown w := by decide
    rintro w (⟨X, hX, hw⟩ | hw)
    · rcases holds_typedByDefault hX with rfl | rfl <;>
        rcases hw with rfl | hw | ⟨d, hd, D, hD, hw⟩
      · decide
      · exact hlisted w hw
      · cases List.mem_singleton.mp hd
        cases hD
        cases hw
      · decide
      · exact hlisted w hw
      · cases hd
    · cases hw
  have htypes : ∀ X, typedByDefault.Holds X → isBlocked X.type = false := by
    intro X hX
    rcases holds_typedByDefault hX with rfl | rfl <;> rfl
  have htyped : ∀ X v, typedByDefault.Holds X → X.params.value? ParamList.typeName = some v →
      ∃ type, v = .text type := by
    intro X v hX hv
    rcases holds_typedByDefault hX with rfl | rfl <;> cases hv <;> exact ⟨_, rfl⟩
  exact (reads_again {} {} read_typedByDefault rfl hshown ⟨htypes, nofun⟩ htyped).1
    (.inl (List.cons_ne_nil _ _))

/-- A particle that is called like a comment. -/
def calledComment : Group where
  forest := (Operation.addParticle "//a" ∅).after {}
  roots := [⟨0, 0⟩]

/-- A decay of particles that have a flag for a type. -/
def flaggedByDefault : Group where
  forest := Operation.addDecay ⟨0, 0⟩ [⟨1, 0⟩] ∅ |>.after <|
    Operation.addParticle "B" (.ofEntries [("type", .flag true)]) |>.after <|
    Operation.addParticle "A" (.ofEntries [("type", .flag true)]) |>.after {}
  roots := [⟨0, 0⟩]

/-- Not every text that is written for a document is a document. A document of defaults leaves nothing to
write; a name without quotes is taken for a comment, where it looks like one; and a flag is no type. -/
theorem not_reads_again :
    (Group.read {} "particle [x]" = .ok {} ∧ ({} : Group).written = .ok "" ∧
      Group.read {} "" = .error (.malformed ⟨⟨1, 1⟩, .statement, "end of input"⟩)) ∧
    (Group.read {} "\"//a\"" = .ok calledComment ∧
      calledComment.written = .ok "//a_0[type=//a];\n" ∧
      Group.read {} "//a_0[type=//a];\n" =
        .error (.malformed ⟨⟨2, 1⟩, .statement, "end of input"⟩)) ∧
    Group.read {} "particle [type]; A -> \x7b B \x7d" = .ok flaggedByDefault ∧
      flaggedByDefault.written = .ok "B_1[type];\nA_0[type];\nA_0 -> \x7b B_1 \x7d;\n" ∧
      Group.read {} "B_1[type];\nA_0[type];\nA_0 -> \x7b B_1 \x7d;\n" =
        .error (.refused (.typeNotText "true")) := by
  have hwritten : Document.read "B_1[type];\nA_0[type];\nA_0 -> \x7b B_1 \x7d;\n" =
      .ok [⟨⟨1, 1⟩, .node "B_1" (.ofEntries [("type", .flag true)])⟩,
        ⟨⟨2, 1⟩, .node "A_0" (.ofEntries [("type", .flag true)])⟩,
        ⟨⟨3, 1⟩, .edge "A_0" ["B_1"] ∅⟩] := rfl
  refine ⟨⟨?_, rfl, rfl⟩, ⟨?_, rfl, rfl⟩, ?_, rfl, by rw [Group.read, hwritten]; rfl⟩
  · exact read_eq_ok.mpr ⟨[⟨⟨1, 1⟩, .defaults .particle (.ofEntries [("x", .flag true)])⟩], rfl, rfl⟩
  · exact read_eq_ok.mpr ⟨[⟨⟨1, 1⟩, .node "//a" ∅⟩], rfl, rfl⟩
  · exact read_eq_ok.mpr ⟨[⟨⟨1, 1⟩, .defaults .particle (.ofEntries [("type", .flag true)])⟩,
      ⟨⟨1, 18⟩, .edge "A" ["B"] ∅⟩], rfl, ofStatements_of_build rfl⟩

end DecayForest.Group
