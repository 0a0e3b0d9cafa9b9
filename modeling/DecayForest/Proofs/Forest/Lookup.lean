import DecayForest.Proofs.Forest.Refusal
/-!
# Where branching fractions come from

A decay that states a fraction has it, and a text there that is no number is the only fault. Any other
decay has the fraction of a mode, if its parent and products are known species: the first mode of the
database that describes it (`Forest.HasMode`). Modes are compared with sorted names, which is the same as
comparing them in any order (`Mode.fits_iff`), so the order of the products of a decay does not count
(`Reachable.fraction_sourced`).
-/

namespace DecayForest

/-! ### Modes of a list -/

/-- A mode is the decay of a species into the given ones in any order, with some angular momentum. Momenta
are compared as numbers. -/
def Mode.Describes (m : Mode) (initial : String) (products : List String) (momentum : Option Float) :
    Prop :=
  m.initial = initial ∧ m.products.Perm products ∧ (m.angularMomentum == momentum) = true

/-- The first item of a list with a property. -/
def IsFirst {α : Type} (P : α → Prop) (a : α) (l : List α) : Prop :=
  ∃ before after, l = before ++ a :: after ∧ P a ∧ ∀ b ∈ before, ¬ P b

variable {m : Mode} {modes : List Mode} {initial : String} {names products : List String}
  {momentum : Option Float} {entries : List (String × ParamList)}

/-- Sorted lists of names are the same where the names are, each as often. -/
theorem mergeSort_eq_iff : names.mergeSort = products.mergeSort ↔ names.Perm products := by
  constructor
  · intro h
    have hnames := (List.mergeSort_perm names fun a b => decide (a ≤ b)).symm
    rw [h] at hnames
    exact hnames.trans (List.mergeSort_perm products _)
  · intro h
    have hperm := (List.mergeSort_perm names fun a b => decide (a ≤ b)).trans
      (h.trans (List.mergeSort_perm products fun a b => decide (a ≤ b)).symm)
    have hsorted : ∀ l : List String, l.mergeSort.Pairwise fun a b => decide (a ≤ b) = true := by
      intro l
      apply List.pairwise_mergeSort
      · intro a b c hab hbc
        simp only [decide_eq_true_eq] at *
        exact String.le_trans hab hbc
      · intro a b
        simpa using String.le_total a b
    refine List.Perm.eq_of_pairwise ?_ (hsorted names) (hsorted products) hperm
    intro a b _ _ hab hba
    simp only [decide_eq_true_eq] at hab hba
    exact String.le_antisymm hab hba

/-- Sorting the names finds the modes that describe a decay. -/
theorem Mode.fits_iff :
    m.fits initial products.mergeSort momentum = true ↔ m.Describes initial products momentum := by
  simp only [Mode.fits, Mode.Describes, Bool.and_eq_true, beq_iff_eq, mergeSort_eq_iff]
  constructor
  · rintro ⟨⟨hinitial, hmomentum⟩, hproducts⟩
    exact ⟨hinitial, hproducts, hmomentum⟩
  · rintro ⟨hinitial, hproducts, hmomentum⟩
    exact ⟨⟨hinitial, hmomentum⟩, hproducts⟩

/-- A mode describes a decay whatever the order of the products. -/
theorem Mode.describes_congr (h : names.Perm products) :
    m.Describes initial names momentum ↔ m.Describes initial products momentum := by
  unfold Mode.Describes
  rw [show m.products.Perm names ↔ m.products.Perm products from
    ⟨fun hm => hm.trans h, fun hm => hm.trans h.symm⟩]

theorem find?_eq_some_iff_isFirst {α : Type} {p : α → Bool} {P : α → Prop} {a : α} {l : List α}
    (h : ∀ b, p b = true ↔ P b) : l.find? p = some a ↔ IsFirst P a l := by
  simp only [List.find?_eq_some_iff_append, IsFirst, Bool.not_eq_true', ← h, Bool.not_eq_true]
  constructor
  · rintro ⟨ha, before, after, hl, hbefore⟩
    exact ⟨before, after, hl, ha, hbefore⟩
  · rintro ⟨before, after, hl, ha, hbefore⟩
    exact ⟨ha, before, after, hl, hbefore⟩

namespace Forest

variable {f : Forest} {p : ParticleId} {P : Particle} {d : DecayId} {D : Decay} {qs : List ParticleId}
  {type name : String} {types : List String} {x : Option Float}

/-- A name is one of a list of species. -/
def Registered (entries : List (String × ParamList)) (name : String) : Prop :=
  name ∈ entries.map Prod.fst

instance (entries : List (String × ParamList)) : DecidablePred (Registered entries) :=
  fun _ => inferInstanceAs (Decidable (_ ∈ _))

/-- The types of some particles. -/
def typesOf (f : Forest) (qs : List ParticleId) : List String :=
  qs.filterMap fun q => (f.particle? q).map Particle.type

/-- A mode is the one between some types: all of them are registered, and the mode is the first that
describes a decay between them. -/
structure ModeBetween (entries : List (String × ParamList)) (modes : List Mode) (type : String)
    (types : List String) (momentum : Option Float) (m : Mode) : Prop where
  parent : Registered entries type
  products : ∀ type ∈ types, Registered entries type
  first : IsFirst (fun m => m.Describes type types momentum) m modes

/-- A mode is the one of a decay with a parent, by the types of the parent and of the products. -/
def HasMode (f : Forest) (entries : List (String × ParamList)) (modes : List Mode) (D : Decay)
    (m : Mode) : Prop :=
  ∃ p P, D.parent = some p ∧ f.particle? p = some P ∧
    ModeBetween entries modes P.type (f.typesOf D.products) (momentum? D.params) m

/-- The particles that a decay with a parent names are live. -/
def NamesLive (f : Forest) (D : Decay) : Prop :=
  ∀ p, D.parent = some p → (∃ P, f.particle? p = some P) ∧
    ∀ q ∈ D.products, ∃ Q, f.particle? q = some Q

theorem Linked.namesLive (hf : Linked f) (hD : f.decay? d = some D) : f.NamesLive D := by
  intro p hp
  refine ⟨?_, fun q hq => (hf.product hD hp hq).live⟩
  obtain ⟨P, hP, -⟩ := hf.owner hD hp
  exact ⟨P, hP⟩

/-- The types of live particles are read one by one. -/
theorem mapM_typesOf (h : ∀ q ∈ qs, ∃ Q, f.particle? q = some Q) :
    (qs.mapM fun q => Particle.type <$> f.particle q) = .ok (f.typesOf qs) := by
  induction qs with
  | nil => rfl
  | cons q qs ih =>
    obtain ⟨⟨Q, hQ⟩, hqs⟩ := List.forall_mem_cons.mp h
    rw [List.mapM_cons, ih hqs, particle_of_some hQ]
    simp [typesOf, hQ]
    rfl

/-! ### Searches in lists of species and modes -/

theorem speciesNamed_eq_ok_iff (hdb : f.database = ⟨.ofList entries, .ofList modes⟩) {s : Species} :
    f.speciesNamed name = .ok s ↔ s.name = name ∧ entries.lookup name = some s.attributes := by
  have hfind : f.database.species.find? name = (entries.lookup name).map (⟨name, ·⟩) := by
    rw [hdb]
    rfl
  unfold speciesNamed
  rw [hfind]
  cases entries.lookup name with
  | none => simp
  | some attributes =>
    cases s
    simp [eq_comm]

theorem exists_speciesNamed_iff (hdb : f.database = ⟨.ofList entries, .ofList modes⟩) :
    (∃ s, f.speciesNamed name = .ok s) ↔ Registered entries name := by
  have hlookup : Registered entries name ↔ ∃ v, entries.lookup name = some v := by
    rw [Registered, ← Option.ne_none_iff_exists', Ne, List.lookup_eq_none_iff]
    simp
  rw [hlookup]
  constructor
  · rintro ⟨s, hs⟩
    exact ⟨_, ((speciesNamed_eq_ok_iff hdb).mp hs).2⟩
  · rintro ⟨v, hv⟩
    exact ⟨⟨name, v⟩, (speciesNamed_eq_ok_iff hdb).mpr ⟨rfl, hv⟩⟩

theorem exists_mapM_speciesNamed_iff (hdb : f.database = ⟨.ofList entries, .ofList modes⟩) :
    (∃ ss, types.mapM f.speciesNamed = .ok ss) ↔ ∀ type ∈ types, Registered entries type := by
  constructor
  · rintro ⟨ss, hss⟩ type htype
    obtain ⟨s, -, hs⟩ := exists_right_of_forall₂ (forall₂_of_mapM_eq_ok hss) htype
    exact (exists_speciesNamed_iff hdb).mp ⟨s, hs⟩
  · intro h
    obtain ⟨ss, hss, -⟩ := mapM_eq_ok fun type htype => (exists_speciesNamed_iff hdb).mpr (h type htype)
    exact ⟨ss, hss⟩

theorem map_name_of_mapM (hdb : f.database = ⟨.ofList entries, .ofList modes⟩) {ss : List Species}
    (h : types.mapM f.speciesNamed = .ok ss) : ss.map Species.name = types := by
  have hnames : List.Forall₂ (fun type s => Species.name s = type) types ss :=
    (forall₂_of_mapM_eq_ok h).imp fun _ _ hs => ((speciesNamed_eq_ok_iff hdb).mp hs).1
  clear h
  induction hnames with
  | nil => rfl
  | cons hs _ ih => rw [List.map_cons, hs, ih]

theorem modeBetween_eq_ok_iff (hdb : f.database = ⟨.ofList entries, .ofList modes⟩) {s : Species}
    {ss : List Species} : f.modeBetween s ss momentum = .ok m ↔
      IsFirst (fun m => m.Describes s.name (ss.map Species.name) momentum) m modes := by
  rw [← find?_eq_some_iff_isFirst fun _ => Mode.fits_iff]
  have hfind : f.database.modes.find? s ss momentum =
      modes.find? (·.fits s.name (ss.map Species.name).mergeSort momentum) := by
    rw [hdb]
    rfl
  unfold modeBetween
  rw [hfind]
  cases modes.find? (·.fits s.name (ss.map Species.name).mergeSort momentum) <;> simp

/-- The search for a mode finds the one between the types. -/
theorem search_eq_ok_iff (hdb : f.database = ⟨.ofList entries, .ofList modes⟩) :
    (do
      let initial ← f.speciesNamed type
      let species ← types.mapM f.speciesNamed
      f.modeBetween initial species momentum) = .ok m ↔
    ModeBetween entries modes type types momentum m := by
  constructor
  · intro h
    obtain ⟨s, hs, h⟩ := exists_of_bind_eq_ok h
    obtain ⟨ss, hss, h⟩ := exists_of_bind_eq_ok h
    have hname := ((speciesNamed_eq_ok_iff hdb).mp hs).1
    rw [modeBetween_eq_ok_iff hdb, map_name_of_mapM hdb hss, hname] at h
    constructor
    · exact (exists_speciesNamed_iff hdb).mp ⟨s, hs⟩
    · exact (exists_mapM_speciesNamed_iff hdb).mp ⟨ss, hss⟩
    · exact h
  · intro h
    obtain ⟨s, hs⟩ := (exists_speciesNamed_iff hdb).mpr h.parent
    obtain ⟨ss, hss⟩ := (exists_mapM_speciesNamed_iff hdb).mpr h.products
    have hname := ((speciesNamed_eq_ok_iff hdb).mp hs).1
    rw [hs, hss]
    apply (modeBetween_eq_ok_iff hdb).mpr
    rw [map_name_of_mapM hdb hss, hname]
    exact h.first

/-! ### Fractions -/

section

variable {params : ParamList} (hdb : f.database = ⟨.ofList entries, .ofList modes⟩)
  (hunstated : params.value? ParamList.fractionName = none)

include hdb hunstated

theorem fractionOf_of_mode (h : ModeBetween entries modes type types (momentum? params) m) :
    f.fractionOf type types params = .ok m.branchingFraction := by
  unfold fractionOf
  rw [hunstated]
  dsimp only
  rw [(search_eq_ok_iff hdb).mpr h]
  rfl

/-- A search without a result is no fault. -/
theorem fractionOf_of_no_mode
    (h : ¬ ∃ m, ModeBetween entries modes type types (momentum? params) m) :
    f.fractionOf type types params = .ok none := by
  cases hx : f.fractionOf type types params with
  | error e =>
    obtain ⟨v, hv, -⟩ := fractionOf_error hx
    cases hunstated.symm.trans hv
  | ok x =>
    unfold fractionOf at hx
    rw [hunstated] at hx
    obtain ⟨mode, hmode, hpure⟩ := exists_of_bind_eq_ok hx
    unfold found? at hmode
    split at hmode
    · next m hm => exact absurd ⟨m, (search_eq_ok_iff hdb).mp hm⟩ h
    · split at hmode
      · cases hmode
        cases hpure
        rfl
      · cases hmode

end

/-- A decay that states a fraction has it, and is at fault where that is no number. -/
theorem branchingFraction_stated (hD : f.decay? d = some D) {v : Value}
    (hv : D.params.value? ParamList.fractionName = some v) :
    f.branchingFraction d = match v.number? with
      | some x => .ok (some x)
      | none => .error (.fractionNotNumber v.display) := by
  simp only [branchingFraction, decay_of_some hD, bind, Except.bind, hv]
  cases v.number? <;> rfl

section

variable (hdb : f.database = ⟨.ofList entries, .ofList modes⟩) (hD : f.decay? d = some D)
  (hlive : f.NamesLive D) (hunstated : D.params.value? ParamList.fractionName = none)

include hdb hD hlive hunstated

theorem branchingFraction_of_mode (h : f.HasMode entries modes D m) :
    f.branchingFraction d = .ok m.branchingFraction := by
  obtain ⟨p, P, hp, hP, hmode⟩ := h
  rw [branchingFraction_eq hD hp hP (mapM_typesOf (hlive p hp).2)]
  exact fractionOf_of_mode hdb hunstated hmode

theorem branchingFraction_of_no_mode (h : ¬ ∃ m, f.HasMode entries modes D m) :
    f.branchingFraction d = .ok none := by
  cases hp : D.parent with
  | none =>
    have hmode : f.mode d = .error .decayWithoutParent := by
      obtain ⟨products, params, parent⟩ := D
      cases hp
      unfold mode
      rw [decay_of_some hD]
      rfl
    simp only [branchingFraction, decay_of_some hD, bind, Except.bind, hunstated, hmode]
    rfl
  | some p =>
    obtain ⟨⟨P, hP⟩, hproducts⟩ := hlive p hp
    rw [branchingFraction_eq hD hp hP (mapM_typesOf hproducts)]
    apply fractionOf_of_no_mode hdb hunstated
    rintro ⟨m, hm⟩
    exact h ⟨m, p, P, hp, hP, hm⟩

end

/-! ### Other orders of the products -/

/-- The forest with the products of a decay in another order. -/
def reordered (f : Forest) (d : DecayId) (qs : List ParticleId) : Forest :=
  f.mapDecay d fun D => { D with products := qs }

theorem decay?_reordered (hD : f.decay? d = some D) (qs : List ParticleId) :
    (f.reordered d qs).decay? d = some { D with products := qs } := by
  rw [reordered, decay?_mapDecay, if_pos rfl, hD]
  rfl

/-- The mode between some types is the same in any order of them. -/
theorem modeBetween_congr (h : names.Perm types) :
    ModeBetween entries modes type names momentum m ↔ ModeBetween entries modes type types momentum m := by
  have hdescribes : (fun m : Mode => m.Describes type names momentum) =
      fun m => m.Describes type types momentum := funext fun m => propext (Mode.describes_congr h)
  constructor
  · intro hm
    exact ⟨hm.parent, fun t ht => hm.products t (h.mem_iff.mpr ht), hdescribes ▸ hm.first⟩
  · intro hm
    exact ⟨hm.parent, fun t ht => hm.products t (h.mem_iff.mp ht), hdescribes ▸ hm.first⟩

theorem hasMode_reordered (h : qs.Perm D.products) :
    (f.reordered d qs).HasMode entries modes { D with products := qs } m ↔
      f.HasMode entries modes D m := by
  have hviews : (f.reordered d qs).particle? = f.particle? :=
    funext fun q => particle?_mapDecay f d _ q
  have htypes : ((f.reordered d qs).typesOf qs).Perm (f.typesOf D.products) := by
    unfold typesOf
    rw [hviews]
    exact h.filterMap _
  unfold HasMode
  rw [hviews]
  apply exists_congr
  intro p
  apply exists_congr
  intro P
  rw [modeBetween_congr htypes]

/-- The fraction of a decay does not hang on the order of its products. -/
theorem branchingFraction_reordered (hdb : f.database = ⟨.ofList entries, .ofList modes⟩)
    (hD : f.decay? d = some D) (hlive : f.NamesLive D) (h : qs.Perm D.products) :
    (f.reordered d qs).branchingFraction d = f.branchingFraction d := by
  have hD' := decay?_reordered hD qs
  cases hv : D.params.value? ParamList.fractionName with
  | some v => rw [branchingFraction_stated hD hv, branchingFraction_stated hD' hv]
  | none =>
    have hdb' : (f.reordered d qs).database = ⟨.ofList entries, .ofList modes⟩ :=
      (database_mapDecay f d _).trans hdb
    have hlive' : (f.reordered d qs).NamesLive { D with products := qs } := by
      intro p hp
      obtain ⟨hparent, hproducts⟩ := hlive p hp
      simp only [reordered, particle?_mapDecay]
      exact ⟨hparent, fun q hq => hproducts q (h.mem_iff.mp hq)⟩
    by_cases hmode : ∃ m, f.HasMode entries modes D m
    · obtain ⟨m, hm⟩ := hmode
      rw [branchingFraction_of_mode hdb hD hlive hv hm]
      exact branchingFraction_of_mode hdb' hD' hlive' hv ((hasMode_reordered h).mpr hm)
    · rw [branchingFraction_of_no_mode hdb hD hlive hv hmode]
      apply branchingFraction_of_no_mode hdb' hD' hlive' hv
      rintro ⟨m, hm⟩
      exact hmode ⟨m, (hasMode_reordered h).mp hm⟩

/-- The branching fraction of a decay whose forest has lists of species and modes for a database. A decay
that states a fraction has this, or is at fault if it is no number, and that is the only fault. Any other
has the fraction of its mode, as far as the mode has one, and without a mode it has none. The particles
that the decay names are live, and their order does not count. -/
theorem Reachable.fraction_sourced (h : Reachable f)
    (hdb : f.database = ⟨.ofList entries, .ofList modes⟩) (hD : f.decay? d = some D) :
    f.NamesLive D ∧
    (∀ v, D.params.value? ParamList.fractionName = some v →
      (∀ x, v.number? = some x → f.branchingFraction d = .ok (some x)) ∧
      (v.number? = none ↔ f.branchingFraction d = .error (.fractionNotNumber v.display))) ∧
    (D.params.value? ParamList.fractionName = none →
      (∀ m, f.HasMode entries modes D m → f.branchingFraction d = .ok m.branchingFraction) ∧
      ((¬ ∃ m, f.HasMode entries modes D m) → f.branchingFraction d = .ok none)) ∧
    ∀ qs, qs.Perm D.products → (f.reordered d qs).branchingFraction d = f.branchingFraction d := by
  have hlive := h.linked.namesLive hD
  refine ⟨hlive, ?_, ?_, ?_⟩
  · intro v hv
    rw [branchingFraction_stated hD hv]
    constructor
    · intro x hx
      rw [hx]
    · cases v.number? <;> simp
  · intro hunstated
    constructor
    · intro m hm
      exact branchingFraction_of_mode hdb hD hlive hunstated hm
    · intro hnone
      exact branchingFraction_of_no_mode hdb hD hlive hunstated hnone
  · intro qs hqs
    exact branchingFraction_reordered hdb hD hlive hqs

/-- The second of two modes is that of a decay, with its products in the other order. -/
def knownDecay : Forest :=
  Operation.addDecay ⟨0, 0⟩ [⟨1, 0⟩, ⟨2, 0⟩] ∅ |>.after <| Operation.addParticle "c" ∅ |>.after <|
    Operation.addParticle "b" ∅ |>.after <| Operation.addParticle "a" ∅ |>.after
      { database := ⟨.ofList [("a", ∅), ("b", ∅), ("c", ∅)],
          .ofList [⟨"a", ["b"], some 0.5, none, ∅⟩, ⟨"a", ["c", "b"], some 0.25, none, ∅⟩]⟩ }

theorem fraction_sourced_knownDecay :
    knownDecay.branchingFraction ⟨0, 0⟩ = .ok (some 0.25) ∧
      (knownDecay.reordered ⟨0, 0⟩ [⟨2, 0⟩, ⟨1, 0⟩]).branchingFraction ⟨0, 0⟩ = .ok (some 0.25) := by
  have hreach : Reachable knownDecay :=
    .step _ (.step _ (.step _ (.step _ (.empty _) trivial) trivial) trivial) trivial
  have hD : knownDecay.decay? ⟨0, 0⟩ = some ⟨[⟨1, 0⟩, ⟨2, 0⟩], ∅, some ⟨0, 0⟩, 3⟩ := rfl
  obtain ⟨-, -, hunstated, horder⟩ := hreach.fraction_sourced rfl hD
  have hfirst : IsFirst (fun m : Mode => m.Describes "a" ["b", "c"] none)
      ⟨"a", ["c", "b"], some 0.25, none, ∅⟩
      [⟨"a", ["b"], some 0.5, none, ∅⟩, ⟨"a", ["c", "b"], some 0.25, none, ∅⟩] := by
    refine ⟨[_], [], rfl, ⟨rfl, .swap _ _ _, rfl⟩, ?_⟩
    intro m hm hdescribes
    cases List.mem_singleton.mp hm
    have hlength := hdescribes.2.1.length_eq
    contradiction
  have hfraction := (hunstated rfl).1 _ ⟨⟨0, 0⟩, _, rfl, rfl, by decide, by decide, hfirst⟩
  exact ⟨hfraction, (horder [⟨2, 0⟩, ⟨1, 0⟩] (.swap _ _ _)).trans hfraction⟩

end Forest

end DecayForest
