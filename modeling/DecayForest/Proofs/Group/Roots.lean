import DecayForest.Group.Basic
import DecayForest.Proofs.Forest.Offering
import DecayForest.Proofs.Forest.Persistence
/-!
# Roots and parents

A product is refused as a root, but the forest knows nothing of roots: a root can become a product
later on (`not_roots_unowned`). What is true of all work on a group is that a root has a parent only
where, after it has become a root, an operation on the forest has succeeded that lists it as a
product (`parent_of_root`).
-/

namespace DecayForest.Group

/-- A step of the work on a group: one more root, a parameter, or an operation on the forest. -/
inductive Step where
  | addRoot (id : ParticleId)
  | putParam (name : String) (v : Value)
  | edit (op : Operation)

/-- The group after a step. A root that is refused leaves it as it was. -/
def Step.after (g : Group) : Step → Group
  | addRoot id => (g.addRoot id).toOption.getD g
  | putParam name v => g.putParam name v
  | edit op => { g with forest := op.after g.forest }

/-- The group after several steps. -/
def after (g : Group) (steps : List Step) : Group :=
  steps.foldl Step.after g

variable {g : Group} {f : Forest} {r p : ParticleId}

theorem after_append_singleton (g : Group) (steps : List Step) (step : Step) :
    g.after (steps ++ [step]) = step.after (g.after steps) := by
  rw [after, List.foldl_append]
  rfl

/-- A root is refused, or it is live and has no parent. -/
theorem addRoot_cases (g : Group) (id : ParticleId) :
    (∃ e, g.addRoot id = .error e) ∨
      (∃ P, g.forest.particle? id = some P ∧ P.parent = none) ∧
        g.addRoot id = .ok { g with roots := g.roots ++ [id] } := by
  unfold addRoot
  rcases g.forest.particle? id with _ | P
  · exact .inl ⟨_, rfl⟩
  rcases hpar : P.parent with _ | owner
  · exact .inr ⟨⟨P, rfl, hpar⟩, by simp [hpar]⟩
  · exact .inl ⟨_, by simp [hpar]; rfl⟩

theorem after_addRoot_cases (g : Group) (id : ParticleId) :
    (Step.addRoot id).after g = g ∨
      (∃ P, g.forest.particle? id = some P ∧ P.parent = none) ∧
        (Step.addRoot id).after g = { g with roots := g.roots ++ [id] } := by
  rcases g.addRoot_cases id with ⟨e, h⟩ | ⟨hfree, h⟩
  · exact .inl (by rw [Step.after, h]; rfl)
  · exact .inr ⟨hfree, by rw [Step.after, h]; rfl⟩

/-- The handle of each root has been given out. -/
def Rooted (g : Group) : Prop :=
  ∀ r ∈ g.roots, g.forest.Spent r

theorem Rooted.step (hg : Rooted g) (step : Step) : Rooted (step.after g) := by
  cases step with
  | addRoot id =>
    rcases g.after_addRoot_cases id with h | ⟨⟨P, hP, -⟩, h⟩ <;> rw [h]
    · exact hg
    · intro r hr
      rcases List.mem_append.mp hr with hr | hr
      · exact hg r hr
      · cases List.mem_singleton.mp hr
        exact Forest.spent_of_particle? hP
  | putParam name v => exact hg
  | edit op => exact fun r hr => (op.precedes_after g.forest).spent (hg r hr)

theorem rooted_after (f : Forest) (steps : List Step) :
    Rooted (({ forest := f } : Group).after steps) := by
  induction steps using List.reverseRecOn with
  | nil => exact nofun
  | append_singleton steps step ih =>
    rw [after_append_singleton]
    exact ih.step step

/-- A step after which a root has a parent: it was a root before, and it had a parent already or the
step is an operation that gives it one. -/
theorem parent_of_root_step (hg : Rooted g) (step : Step) (hr : r ∈ (step.after g).roots)
    (hp : (step.after g).forest.ParentOf p r) :
    r ∈ g.roots ∧ ((∃ p, g.forest.ParentOf p r) ∨
      ∃ op, step = .edit op ∧ op.Links g.forest r) := by
  cases step with
  | addRoot id =>
    rcases g.after_addRoot_cases id with h | ⟨⟨P, hP, hnone⟩, h⟩ <;> rw [h] at hr hp
    · exact ⟨hr, .inl ⟨p, hp⟩⟩
    · rcases List.mem_append.mp hr with hr | hr
      · exact ⟨hr, .inl ⟨p, hp⟩⟩
      · cases List.mem_singleton.mp hr
        exact ((Forest.parent_eq_none_iff hP).mp hnone p hp).elim
  | putParam name v => exact ⟨hr, .inl ⟨p, hp⟩⟩
  | edit op =>
    refine ⟨hr, ?_⟩
    by_cases hbefore : ∃ p, g.forest.ParentOf p r
    · exact .inl hbefore
    · refine .inr ⟨op, rfl, Classical.byContradiction fun hop => ?_⟩
      exact op.not_parentOf_after (hg r hr) (not_exists.mp hbefore) hop p hp

/-- A root with a parent got it as a root: some operation on the forest succeeded that lists it as a
product. -/
theorem parent_of_root (f : Forest) (steps : List Step)
    (hr : r ∈ (({ forest := f } : Group).after steps).roots)
    (hp : (({ forest := f } : Group).after steps).forest.ParentOf p r) :
    ∃ before op rest, steps = before ++ .edit op :: rest ∧
      r ∈ (({ forest := f } : Group).after before).roots ∧
      op.Links (({ forest := f } : Group).after before).forest r := by
  induction steps using List.reverseRecOn generalizing p with
  | nil => cases hr
  | append_singleton steps step ih =>
    rw [after_append_singleton] at hr hp
    obtain ⟨hroot, ⟨q, hq⟩ | ⟨op, rfl, hop⟩⟩ := parent_of_root_step (rooted_after f steps) step hr hp
    · obtain ⟨before, op, rest, rfl, hbefore, hop⟩ := ih hroot hq
      exact ⟨before, op, rest ++ [step], by simp, hbefore, hop⟩
    · exact ⟨steps, op, [], rfl, hroot, hop⟩

/-- A particle becomes a root, and then the product of another one. -/
def adoptedRoot : List Step :=
  [.edit (.addParticle "A" ∅), .edit (.addParticle "B" ∅), .addRoot ⟨0, 0⟩,
    .edit (.addDecay ⟨1, 0⟩ [⟨0, 0⟩] ∅)]

theorem parent_of_root_adopted :
    ⟨0, 0⟩ ∈ (({} : Group).after adoptedRoot).roots ∧
      (({} : Group).after adoptedRoot).forest.ParentOf ⟨1, 0⟩ ⟨0, 0⟩ ∧
      ∃ before op rest, adoptedRoot = before ++ .edit op :: rest ∧
        ⟨0, 0⟩ ∈ (({} : Group).after before).roots ∧
        op.Links (({} : Group).after before).forest ⟨0, 0⟩ := by
  have hroot : ⟨0, 0⟩ ∈ (({} : Group).after adoptedRoot).roots := List.mem_singleton_self _
  have hparent : (({} : Group).after adoptedRoot).forest.ParentOf ⟨1, 0⟩ ⟨0, 0⟩ := rfl
  exact ⟨hroot, hparent, parent_of_root {} adoptedRoot hroot hparent⟩

/-- Not every root is without a parent. -/
theorem not_roots_unowned :
    ¬ ∀ (f : Forest) (steps : List Step), ∀ r ∈ (({ forest := f } : Group).after steps).roots,
      ∀ p, ¬ (({ forest := f } : Group).after steps).forest.ParentOf p r :=
  fun h => h {} adoptedRoot ⟨0, 0⟩ (List.mem_singleton_self _) ⟨1, 0⟩ rfl

end DecayForest.Group
