import DecayForest.Proofs.Forest.Alternatives
/-!
# Refused expansions

An expansion counts the alternatives before it makes any, and a particle that is dead, too high or has
too many of them is refused with the forest as it was. A branching fraction that is no number is only
found on the way. What has been copied by then stays in the forest, as trees beside all that was there
(`Reachable.expand_refused`).
-/

namespace DecayForest.Forest

variable {f g : Forest} {p : ParticleId} {d : DecayId} {D : Decay} {e : ModelError} {limit : Nat}
  {parent : Option ParticleId} {t : Tree}

/-! ### Branching fractions at fault -/

theorem found?_error {α : Type} {x : Except ModelError α} (h : found? x = .error e) :
    x = .error e ∧ ¬ e.isNotFound := by
  unfold found? at h
  split at h
  · cases h
  · split at h
    · cases h
    · next hnot =>
      cases h
      exact ⟨rfl, hnot⟩

theorem speciesNamed_error {name : String} (h : f.speciesNamed name = .error e) : e.isNotFound := by
  unfold speciesNamed at h
  split at h <;> cases h
  rfl

theorem modeBetween_error {initial : Species} {products : List Species} {momentum : Option Float}
    (h : f.modeBetween initial products momentum = .error e) : e.isNotFound := by
  unfold modeBetween at h
  split at h <;> cases h
  rfl

/-- The database is never at fault: a fraction that it does not know is missing. Only a parameter of the
decay itself can be wrong. -/
theorem fractionOf_error {type : String} {types : List String} {params : ParamList}
    (h : f.fractionOf type types params = .error e) :
    ∃ v, params.value? ParamList.fractionName = some v ∧ v.number? = none ∧
      e = .fractionNotNumber v.display := by
  unfold fractionOf at h
  split at h
  · next v hv =>
    split at h
    · cases h
    · next hnone =>
      cases h
      exact ⟨v, hv, hnone, rfl⟩
  · rcases bind_eq_error h with h | ⟨_, -, h⟩
    · obtain ⟨hsearch, hnot⟩ := found?_error h
      refine (hnot ?_).elim
      rcases bind_eq_error hsearch with h | ⟨initial, -, h⟩
      · exact speciesNamed_error h
      rcases bind_eq_error h with h | ⟨products, -, h⟩
      · obtain ⟨name, -, h⟩ := mapM_eq_error h
        exact speciesNamed_error h
      · exact modeBetween_error h
    · cases h

theorem Linked.branchingFraction_error (hf : Linked f) (hD : f.decay? d = some D)
    (hp : D.parent = some p) (h : f.branchingFraction d = .error e) :
    ∃ v, D.params.value? ParamList.fractionName = some v ∧ v.number? = none ∧
      e = .fractionNotNumber v.display := by
  obtain ⟨P, hP, -⟩ := hf.owner hD hp
  have hlive : ∀ q ∈ D.products, ∃ type, (Particle.type <$> f.particle q) = .ok type := by
    intro q hq
    obtain ⟨Q, hQ⟩ := (hf.product hD hp hq).live
    exact ⟨Q.type, by rw [particle_of_some hQ]; rfl⟩
  obtain ⟨types, htypes, -⟩ := mapM_eq_ok hlive
  rw [branchingFraction_eq hD hp hP htypes] at h
  exact fractionOf_error h

/-! ### What a refusal leaves behind -/

/-- The expansion of a tree is refused by a check, or for a branching fraction in it. -/
theorem Linked.expand_error (hf : Linked f) (ht : f.Shows parent t)
    (hrun : (expand t.id limit).on f = (.error e, g)) :
    (g = f ∧ ((∃ n, e = .tooDeep (f.label t.id) n) ∨
      ∃ n, e = .tooManyAlternatives (f.label t.id) n limit)) ∨
    f.FaultBelow t e ∧ ∃ ts, Grown f g ts := by
  rw [Edit.on_expand_eq hf ht] at hrun
  split at hrun
  · cases hrun
    exact .inl ⟨rfl, .inl ⟨_, rfl⟩⟩
  next hheight =>
  split at hrun
  · cases hrun
    exact .inl ⟨rfl, .inr ⟨_, rfl⟩⟩
  · -- the checks have passed, so the fault is one of a branching fraction
    have hroom := Nat.lt_succ_of_le (Nat.le_of_not_lt hheight)
    have hw : ¬ f.Weighable t := by
      intro hw
      obtain ⟨k, us, vs, hok, -⟩ := Edit.on_expandFrom hf rfl ht hroom hw
      cases hok.symm.trans hrun
    obtain ⟨e', k, ts, hfail, hg, hfault⟩ := Edit.on_expandFrom_refused hf ht hroom hw
    cases hfail.symm.trans hrun
    exact .inr ⟨hfault, ts, hg⟩

theorem Linked.faultBelow_error (hf : Linked f) (ht : f.Shows parent t) (h : f.FaultBelow t e) :
    ∃ d D q v, f.decay? d = some D ∧ D.parent = some q ∧ f.Above t.id q ∧
      D.params.value? ParamList.fractionName = some v ∧ v.number? = none ∧
      e = .fractionNotNumber v.display := by
  obtain ⟨d, hd, hfault⟩ := h
  obtain ⟨D, q, hD, hq, hmem⟩ := ht.decay_of_mem hd
  obtain ⟨v, hv⟩ := hf.branchingFraction_error hD hq hfault
  exact ⟨d, D, q, v, hD, hq, (ht.mem_ids_iff hf).mp hmem, hv⟩

/-- A refused expansion. The particle is dead, or stands above too long a chain of decays, or has more
alternatives than the limit, and the forest is the same. Or the branching fraction of some decay below
it is no number, and then all that was in the forest is as it was, but there may be new trees beside
it. -/
theorem Reachable.expand_refused (h : Reachable f) (hrun : (expand p limit).on f = (.error e, g)) :
    (g = f ∧ (e = .deadParticle p ∨ (∃ n, e = .tooDeep (f.label p) n) ∨
      ∃ n, e = .tooManyAlternatives (f.label p) n limit)) ∨
    (∃ d D q v, f.decay? d = some D ∧ D.parent = some q ∧ f.Above p q ∧
      D.params.value? ParamList.fractionName = some v ∧ v.number? = none ∧
      e = .fractionNotNumber v.display) ∧ ∃ ts, Grown f g ts := by
  have hf := h.linked
  rcases hp : f.particle? p with _ | P
  · have htree : f.tree p = .error (.deadParticle p) := by
      rw [tree, checkDepth, depth, particle_of_none hp]
      rfl
    unfold expand at hrun
    rw [Edit.on_bind_of_error (e := .deadParticle p) (g := f) (by rw [Edit.on_ask, htree])] at hrun
    cases hrun
    exact .inl ⟨rfl, .inl rfl⟩
  obtain ⟨t, ht, rfl⟩ := hf.exists_tree hp
  rcases hf.expand_error ht hrun with ⟨hsame, hcheck⟩ | ⟨hfault, hg⟩
  · exact .inl ⟨hsame, .inr hcheck⟩
  · exact .inr ⟨hf.faultBelow_error ht hfault, hg⟩

/-- A particle that decays in two ways. The branching fraction of the second is no number. -/
def wrongFraction : Forest :=
  Operation.addDecay ⟨0, 0⟩ [⟨2, 0⟩] (.ofEntries [(ParamList.fractionName, .text "x")]) |>.after <|
    Operation.addDecay ⟨0, 0⟩ [⟨1, 0⟩] ∅ |>.after <| Operation.addParticle "c" ∅ |>.after <|
      Operation.addParticle "b" ∅ |>.after <| Operation.addParticle "a" ∅ |>.after {}

theorem reachable_wrongFraction : Reachable wrongFraction :=
  .step _ (.step _ (.step _ (.step _ (.step _ (.empty {}) trivial) trivial) trivial) trivial) trivial

theorem expand_wrongFraction : ∃ g,
    (expand ⟨0, 0⟩ defaultLimit).on wrongFraction = (.error (.fractionNotNumber "x"), g) ∧
      (g.particleCount, g.decayCount) = (5, 3) := by
  have hanswer : ((expand ⟨0, 0⟩ defaultLimit).on wrongFraction).1.map (fun _ => ()) =
      .error (.fractionNotNumber "x") := by decide +kernel
  have hcounts : (((expand ⟨0, 0⟩ defaultLimit).on wrongFraction).2.particleCount,
      ((expand ⟨0, 0⟩ defaultLimit).on wrongFraction).2.decayCount) = (5, 3) := by decide +kernel
  obtain ⟨g, hrun⟩ := Edit.on_of_map_eq_error hanswer
  rw [hrun] at hcounts
  exact ⟨g, hrun, hcounts⟩

theorem expand_refused_wrongFraction :
    ∃ g, (expand ⟨0, 0⟩ defaultLimit).on wrongFraction = (.error (.fractionNotNumber "x"), g) ∧
      ∃ ts, Grown wrongFraction g ts := by
  obtain ⟨g, hrun, -⟩ := expand_wrongFraction
  rcases reachable_wrongFraction.expand_refused hrun with ⟨-, h | ⟨_, h⟩ | ⟨_, h⟩⟩ | ⟨-, hg⟩
  · cases h
  · cases h
  · cases h
  · exact ⟨g, hrun, hg⟩

/-- The copies for the first decay are left behind when the second is found to be wrong. -/
theorem expand_leaves_copies :
    ∃ g, Reachable wrongFraction ∧
      (expand ⟨0, 0⟩ defaultLimit).on wrongFraction = (.error (.fractionNotNumber "x"), g) ∧
      (wrongFraction.particleCount, wrongFraction.decayCount) = (3, 2) ∧
      (g.particleCount, g.decayCount) = (5, 3) := by
  obtain ⟨g, hrun, hcounts⟩ := expand_wrongFraction
  exact ⟨g, reachable_wrongFraction, hrun, rfl, hcounts⟩

end DecayForest.Forest
