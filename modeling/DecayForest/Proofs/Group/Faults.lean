import DecayForest.Group.Kinematics
import DecayForest.Proofs.Group.Expanding
/-!
# Faults of groups

A handle names nothing only where it comes from outside. What is done with a group that has been read
goes by handles that its own forest has given out and that are still good, so it is never refused for a
handle: reading finds fault with the document (`read_error`), kinematics with masses
(`impossibleDecays_error`), and an expansion with its size or a branching fraction
(`Stands.expand_error`).
-/

namespace DecayForest

namespace ModelError

variable {e : ModelError}

theorem alive_of_isConsistency (h : e.isConsistency) : ¬ e.isDeadHandle := by
  cases e <;> first | exact Bool.false_ne_true | cases h

end ModelError

/-! ### Reading -/

namespace Group

variable {database : Database} {source : String} {statements : List Statement} {e : ModelError}

theorem ofStatements_error (h : ofStatements database statements = .error e) : ¬ e.isDeadHandle := by
  rw [ofStatements_eq] at h
  rcases Building.build_cases database statements with ⟨f, names, table, found, hrun, -⟩ |
    ⟨e', f, hrun, hwhy⟩ <;> rw [hrun] at h <;> cases h
  rcases hwhy with ⟨⟨shown, rfl⟩, -⟩ | ⟨hkind, -⟩ | ⟨⟨p, n, rfl⟩, -⟩
  · exact Bool.false_ne_true
  · exact ModelError.alive_of_isConsistency hkind
  · exact Bool.false_ne_true

/-- What cannot be read is an invalid document. -/
theorem read_error {d : DocumentError} (h : Group.read database source = .error d) : d.isInvalid := by
  rcases bind_eq_error h with h | ⟨located, -, h⟩
  · rcases hread : Document.read source with e | located <;> rw [hread] at h <;> cases h
    rfl
  · rcases hbuilt : ofStatements database (located.map Located.value) with e | g <;>
      rw [hbuilt] at h <;> cases h
    exact DocumentError.isInvalid_refused.mpr (ofStatements_error hbuilt)

end Group

/-! ### Kinematics -/

namespace Forest

variable {f : Forest} {p : ParticleId} {P : Particle} {d : DecayId} {name : String} {e : ModelError}

/-- An attribute of a live particle is found or missing. That the database may not know its type does
not matter. -/
theorem attributeOf_error (hp : f.particle? p = some P) (h : f.attributeOf p name = .error e) :
    e = .noAttribute P.type name := by
  unfold attributeOf at h
  rw [particle_of_some hp] at h
  dsimp only [bind, Except.bind] at h
  split at h
  · cases h
  split at h
  · next hsearch =>
    obtain ⟨hnamed, hnot⟩ := found?_error hsearch
    exact (hnot (speciesNamed_error hnamed)).elim
  split at h
  · cases h
  · split at h
    · cases h
    · split at h <;> cases h
      rfl

/-- A live particle has a mass, or lacks one, or has one that is no number. -/
theorem mass_error (hp : f.particle? p = some P) (h : f.mass p = .error e) : ¬ e.isDeadHandle := by
  rcases bind_eq_error h with h | ⟨v, -, h⟩
  · cases attributeOf_error hp h
    exact Bool.false_ne_true
  · split at h <;> cases h
    exact Bool.false_ne_true

theorem Linked.impossible_error (hf : Linked f) (hp : f.particle? p = some P) (hd : d ∈ P.decays)
    (h : f.impossible? p d = .error e) : ¬ e.isDeadHandle := by
  obtain ⟨D, hD, hparent⟩ := hf.listed hp hd
  unfold impossible? at h
  rw [decay_of_some hD] at h
  dsimp only [bind, Except.bind] at h
  split at h
  · cases h
  split at h
  · next hmass =>
    cases h
    exact mass_error hp hmass
  split at h
  · next hmasses =>
    cases h
    obtain ⟨q, hq, hmass⟩ := mapM_eq_error hmasses
    obtain ⟨Q, hQ⟩ := (hf.product hD hparent hq).live
    exact mass_error hQ hmass
  · cases h

theorem mem_decaysBelow {r : ParticleId} : (p, d) ∈ f.decaysBelow r ↔
    p ∈ f.preorder r ∧ ∃ P, f.particle? p = some P ∧ d ∈ P.decays := by
  rw [decaysBelow, List.mem_flatMap]
  constructor
  · rintro ⟨q, hq, hpd⟩
    rcases hQ : f.particle? q with _ | Q <;> rw [hQ] at hpd
    · cases hpd
    · obtain ⟨d', hd', heq⟩ := List.mem_map.mp hpd
      cases heq
      exact ⟨hq, Q, hQ, hd'⟩
  · rintro ⟨hp, P, hP, hd⟩
    refine ⟨p, hp, ?_⟩
    rw [hP]
    exact List.mem_map_of_mem hd

end Forest

namespace Group

open Forest

variable {g : Group} {e : ModelError}

theorem impossibleDecays_error (hf : Linked g.forest) (h : g.impossibleDecays = .error e) :
    ¬ e.isDeadHandle := by
  rcases bind_eq_error h with h | ⟨found, -, h⟩
  · obtain ⟨⟨p, d⟩, hpd, hfault⟩ := mapM_eq_error h
    obtain ⟨r, -, hr⟩ := List.mem_flatMap.mp hpd
    obtain ⟨-, P, hP, hd⟩ := mem_decaysBelow.mp hr
    exact hf.impossible_error hP hd hfault
  · cases h

end Group

end DecayForest
