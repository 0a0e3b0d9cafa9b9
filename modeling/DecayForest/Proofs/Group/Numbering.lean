import DecayForest.Proofs.Group.Correspondence
/-!
# The order in which particles are created

The first pass over the statements creates the particles of the node statements one after the other, and
the second pass creates none for an identifier that is known. Serial numbers are given out in turn, and
decays come after all of these particles. So where no identifier has two node statements, its place among
them is the serial number of its particle (`Group.ofStatements_numbered`).
-/

namespace DecayForest

namespace Building

open Forest Edit

variable {f f' : Forest} {names names' : Names} {name : String}
  {params defaults particles decays : ParamList}
  {statements : List Statement} {p x : ParticleId} {ids ids' : List ParticleId} {n : Nat}

/-- A handle that has been spent finds no particle but the one with this serial number. -/
structure Numbered (f : Forest) (x : ParticleId) (n : Nat) : Prop where
  spent : f.Spent x
  serial : ∀ {X}, f.particle? x = some X → X.serial = n

theorem Numbered.follows (h : Numbered f x n) (hfollows : Follows f f') : Numbered f' x n where
  spent := hfollows.precedes.spent h.spent
  serial hX := by
    obtain ⟨F, hF, -, hserial⟩ := hfollows.old hX (.inl h.spent)
    exact hserial.symm.trans (h.serial hF)

theorem numbered_plusParticle (f : Forest) (type : String) (params : ParamList) :
    Numbered (f.plusParticle type params) f.nextParticle f.nextSerial where
  spent := spent_plusParticle.mpr (.inl rfl)
  serial hX := by
    rw [particle?_plusParticle, if_pos rfl] at hX
    cases hX
    rfl

/-! ### The second pass -/

theorem mention_extends (h : (mention names defaults name).on f = (.ok (names', p), f')) :
    Extends names names' := by
  unfold mention at h
  rcases hname : names.lookup name with _ | q <;> rw [hname] at h
  · obtain ⟨q, g, -, h⟩ := on_bind_eq_ok.mp h
    cases h
    exact .cons hname _
  · cases h
    exact .refl _

theorem mentionAll_extends {targets : List String}
    (h : (mentionAll names defaults ids targets).on f = (.ok (names', ids'), f')) :
    Extends names names' := by
  induction targets generalizing names ids f with
  | nil =>
    cases h
    exact .refl _
  | cons name targets ih =>
    obtain ⟨⟨names₁, q⟩, f₁, hmention, h⟩ := on_bind_eq_ok.mp h
    exact (mention_extends hmention).trans (ih h)

/-- Who is known stays the same particle. -/
theorem connectAll_extends
    (h : (connectAll names particles decays statements).on f = (.ok names', f')) :
    Extends names names' := by
  induction statements generalizing names particles decays f with
  | nil =>
    cases h
    exact .refl _
  | cons s rest ih =>
    match s with
    | .defaults .particle _ | .defaults .decay _ | .node _ _ | .param _ _ => exact ih h
    | .edge source targets params =>
      obtain ⟨⟨names₁, p⟩, f₁, hsource, h⟩ := on_bind_eq_ok.mp h
      obtain ⟨⟨names₂, ps⟩, f₂, htargets, h⟩ := on_bind_eq_ok.mp h
      obtain ⟨d, f₃, -, h⟩ := on_bind_eq_ok.mp h
      exact (mention_extends hsource).trans ((mentionAll_extends htargets).trans (ih h))

section

variable {I : Forest → Prop} (hI : Lasting I)
include hI

theorem keeps_mention (names : Names) (defaults : ParamList) (name : String) :
    Keeps I (mention names defaults name) := by
  unfold mention
  split
  · exact .pure _
  · exact .bind (hI.addParticle name defaults) fun _ => .pure _

theorem keeps_mentionAll (names : Names) (defaults : ParamList) (ids : List ParticleId)
    (targets : List String) : Keeps I (mentionAll names defaults ids targets) := by
  induction targets generalizing names ids with
  | nil => exact .pure _
  | cons name targets ih => exact .bind (keeps_mention hI names defaults name) fun _ => ih _ _

/-- The second pass is made of operations. -/
theorem keeps_connectAll (names : Names) (particles decays : ParamList)
    (statements : List Statement) : Keeps I (connectAll names particles decays statements) := by
  induction statements generalizing names particles decays with
  | nil => exact .pure _
  | cons s rest ih =>
    match s with
    | .defaults .particle _ | .defaults .decay _ | .node _ _ | .param _ _ => exact ih _ _ _
    | .edge source targets params =>
      refine .bind (keeps_mention hI names particles source) fun (names₁, p) => ?_
      refine .bind (keeps_mentionAll hI names₁ particles [] targets) fun (names₂, ps) => ?_
      exact .bind (hI.addDecay p ps _) fun _ => ih _ _ _

end

/-! ### The first pass -/

theorem declare_new (hname : names.lookup name = none)
    (h : (declare names name params).on f = (.ok names', f')) :
    names' = (name, f.nextParticle) :: names ∧
      ∃ type params, f' = f.plusParticle type params := by
  obtain ⟨type, g, htype, h⟩ := on_bind_eq_ok.mp h
  rw [on_lift] at htype
  obtain ⟨-, rfl⟩ := Prod.mk.inj htype
  dsimp only at h
  rw [hname] at h
  cases h
  exact ⟨rfl, _, _, rfl⟩

/-- New particles get the next serial numbers, in the order of their statements. -/
theorem declareAll_numbers
    (h : (declareAll names defaults statements).on f = (.ok names', f'))
    (hnodup : (statements.flatMap declared).Nodup)
    (hnew : ∀ a ∈ statements.flatMap declared, names.lookup a = none) :
    Extends names names' ∧ Follows f f' ∧ ∀ a ∈ statements.flatMap declared, ∃ x,
      names'.lookup a = some x ∧
        Numbered f' x (f.nextSerial + (statements.flatMap declared).idxOf a) := by
  induction statements generalizing names defaults f with
  | nil =>
    cases h
    exact ⟨.refl _, .refl _, nofun⟩
  | cons s rest ih =>
    match s with
    | .defaults .particle _ | .defaults .decay _ | .edge _ _ _ | .param _ _ => exact ih h hnodup hnew
    | .node name params =>
      have hsplit : (Statement.node name params :: rest).flatMap declared =
          name :: rest.flatMap declared := rfl
      rw [hsplit] at hnodup hnew ⊢
      obtain ⟨names₁, f₁, hfirst, h⟩ := on_bind_eq_ok.mp h
      obtain ⟨hname, hrest⟩ := List.forall_mem_cons.mp hnew
      obtain ⟨hout, hnodup⟩ := List.nodup_cons.mp hnodup
      obtain ⟨rfl, type, ps, rfl⟩ := declare_new hname hfirst
      have hne : ∀ a ∈ rest.flatMap declared, a ≠ name := fun a ha heq => hout (heq ▸ ha)
      obtain ⟨hextends, hfollows, hnumbers⟩ := ih h hnodup fun a ha => by
        rw [List.lookup_cons, beq_false_of_ne (hne a ha)]
        exact hrest a ha
      have hadded : Follows f (f.plusParticle type ps) := .plusParticle f type ps
      refine ⟨(Extends.cons hname _).trans hextends, hadded.trans hfollows,
        List.forall_mem_cons.mpr ⟨?_, fun a ha => ?_⟩⟩
      · refine ⟨_, hextends name _ List.lookup_cons_self, ?_⟩
        rw [List.idxOf_cons_self]
        exact (numbered_plusParticle f type ps).follows hfollows
      · obtain ⟨x, hx, hnumbered⟩ := hnumbers a ha
        refine ⟨x, hx, ?_⟩
        rw [List.idxOf_cons_ne _ (hne a ha).symm]
        have hnext : (f.plusParticle type ps).nextSerial = f.nextSerial + 1 := rfl
        rwa [hnext, Nat.add_right_comm, Nat.add_assoc] at hnumbered

end Building

namespace Group

open Building Forest Edit

/-- What is known of the group of some statements, along with the serial numbers of its particles. -/
theorem ofStatements_numbered {database : Database} {s : List Statement} {g : Group}
    (h : ofStatements database s = .ok g) (hnodup : (s.flatMap declared).Nodup) :
    ∃ names table, declaredFrom (fun _ => none) ∅ s = .ok table ∧
      Built g.forest names (mentionedFrom table ∅ s) (edgesFrom ∅ s) ∧
      Building.roots g.forest names s = .ok g.roots ∧ g.params = groupParams s ∧
      ∀ a ∈ s.flatMap declared, ∃ x X, names.lookup a = some x ∧
        g.forest.particle? x = some X ∧ X.serial = (s.flatMap declared).idxOf a := by
  rw [ofStatements_eq] at h
  rcases hbuild : (build s).on { database } with ⟨e | found, f⟩ <;> rw [hbuild] at h <;> cases h
  obtain ⟨f₁, names₁, names₂, hdeclare, hconnect, hfound, -⟩ := on_build_eq_ok.mp hbuild
  -- The passes keep up what `Built` says, and the serial numbers stand after the first of them.
  rcases (Built.empty database).on_declareAll ∅ s with
    ⟨f', names', table, htable, hrun, hb₁⟩ | ⟨e, f', -, hrun⟩
  · cases hrun.symm.trans hdeclare
    rcases hb₁.on_connectAll .nil ∅ ∅ s with ⟨f', names', hrun', hb₂, -⟩ | ⟨e, f', hrun', -⟩
    · cases hrun'.symm.trans hconnect
      obtain ⟨-, -, hnumbers⟩ := declareAll_numbers hdeclare hnodup fun a _ => rfl
      have hfollows : Follows f₁ f := by
        have hkept := keeps_connectAll (lasting_follows f₁) names₁ ∅ ∅ s f₁ (.refl f₁)
        rwa [hconnect] at hkept
      refine ⟨names₂, table, htable, hb₂, hfound, rfl, fun a ha => ?_⟩
      obtain ⟨x, hx, hnumbered⟩ := hnumbers a ha
      have hx₂ := connectAll_extends hconnect a x hx
      obtain ⟨X, hX⟩ := hb₂.live hx₂
      refine ⟨x, X, hx₂, hX, ?_⟩
      rw [(hnumbered.follows hfollows).serial hX]
      exact Nat.zero_add _
    · cases hrun'.symm.trans hconnect
  · cases hrun.symm.trans hdeclare

end Group

end DecayForest
