import DecayForest.Forest.Edit
/-!
# Runs of edits

`Edit.on` is what an edit makes of a forest: its answer, and the forest that it leaves behind. Edits
in sequence run on the forest that the ones before them have left, up to the first that fails. A property
of forests that each of them keeps is kept by all (`Edit.Keeps`); `Edit.Ensures` tells of answers, too.
-/

namespace DecayForest

namespace Edit

variable {α β : Type}

/-- The answer of an edit and the forest it leaves. -/
def on (x : Edit α) (f : Forest) : Except ModelError α × Forest :=
  x.run.run f

@[simp] theorem on_pure (a : α) (f : Forest) : (pure a : Edit α).on f = (.ok a, f) := rfl

@[simp] theorem on_throw (e : ModelError) (f : Forest) :
    (throw e : Edit α).on f = (.error e, f) := rfl

@[simp] theorem on_get (f : Forest) : (get : Edit Forest).on f = (.ok f, f) := rfl

@[simp] theorem on_lift (x : Except ModelError α) (f : Forest) :
    (liftM x : Edit α).on f = (x, f) := by
  cases x <;> rfl

theorem on_bind (x : Edit α) (next : α → Edit β) (f : Forest) :
    (x >>= next).on f =
      match x.on f with
      | (.ok a, g) => (next a).on g
      | (.error e, g) => (.error e, g) := by
  unfold on ExceptT.run StateT.run
  simp only [bind, ExceptT.bind, ExceptT.mk, StateT.bind, ExceptT.bindCont]
  rcases x f with ⟨a | a, g⟩ <;> rfl

variable {x : Edit α} {next : α → Edit β} {f g h : Forest} {a : α} {b : β} {e : ModelError}

theorem on_bind_of_ok (hx : x.on f = (.ok a, g)) : (x >>= next).on f = (next a).on g := by
  rw [on_bind, hx]

@[simp] theorem on_ask (question : Forest → Except ModelError α) (f : Forest) :
    (Forest.ask question).on f = (question f, f) := by
  rw [Forest.ask, on_bind_of_ok (on_get f)]
  cases question f <;> rfl

theorem on_bind_of_error (hx : x.on f = (.error e, g)) : (x >>= next).on f = (.error e, g) := by
  rw [on_bind, hx]

theorem on_bind_eq_ok :
    (x >>= next).on f = (.ok b, h) ↔ ∃ a g, x.on f = (.ok a, g) ∧ (next a).on g = (.ok b, h) := by
  rw [on_bind]
  constructor
  · rcases x.on f with ⟨a | a, g⟩ <;> intro hb
    · cases hb
    · exact ⟨a, g, rfl, hb⟩
  · rintro ⟨a, g, hx, hb⟩
    rw [hx]
    exact hb

@[simp] theorem on_map (φ : α → β) (x : Edit α) (f : Forest) :
    (φ <$> x).on f = ((x.on f).1.map φ, (x.on f).2) := by
  rw [← bind_pure_comp, on_bind]
  rcases x.on f with ⟨a | a, g⟩ <;> rfl

theorem on_of_map_eq_ok {φ : α → β} (h : (x.on f).1.map φ = .ok b) :
    ∃ a g, x.on f = (.ok a, g) ∧ φ a = b := by
  rcases hx : x.on f with ⟨e | a, g⟩ <;> rw [hx] at h <;> cases h
  exact ⟨a, g, rfl, rfl⟩

theorem on_of_map_eq_error {φ : α → β} (h : (x.on f).1.map φ = .error e) :
    ∃ g, x.on f = (.error e, g) := by
  rcases hx : x.on f with ⟨e | a, g⟩ <;> rw [hx] at h <;> cases h
  exact ⟨g, rfl⟩

/-- Whatever an edit does and however it ends, a property of forests stays. -/
def Keeps (I : Forest → Prop) (x : Edit α) : Prop :=
  ∀ f, I f → I (x.on f).2

namespace Keeps

variable {I : Forest → Prop}

theorem pure (a : α) : Keeps I (Pure.pure a : Edit α) := fun _ h => h

theorem throw (e : ModelError) : Keeps I (MonadExcept.throw e : Edit α) := fun _ h => h

theorem get : Keeps I (MonadState.get : Edit Forest) := fun _ h => h

theorem lift (x : Except ModelError α) : Keeps I (liftM x : Edit α) := fun f h => by
  rwa [on_lift]

theorem ask (question : Forest → Except ModelError α) : Keeps I (Forest.ask question) :=
  fun f h => by rwa [on_ask]

/-- A property that an edit establishes stays, whether it fails or what comes next keeps it. -/
theorem rest (hg : I (x.on f).2) (hnext : ∀ a, Keeps I (next a)) : I ((x >>= next).on f).2 := by
  rw [on_bind]
  rcases hr : x.on f with ⟨a | a, g⟩ <;> rw [hr] at hg
  · exact hg
  · exact hnext a g hg

theorem bind (hx : Keeps I x) (hnext : ∀ a, Keeps I (next a)) : Keeps I (x >>= next) :=
  fun f hf => rest (hx f hf) hnext

theorem map (φ : α → β) (hx : Keeps I x) : Keeps I (φ <$> x) := fun f hf => by
  rw [on_map]; exact hx f hf

theorem forM {γ : Type} {step : γ → Edit Unit} (l : List γ) (h : ∀ c ∈ l, Keeps I (step c)) :
    Keeps I (l.forM step) := by
  induction l with
  | nil => exact .pure ()
  | cons c l ih =>
    show Keeps I (step c >>= fun _ => l.forM step)
    exact .bind (h c List.mem_cons_self) fun _ => ih fun d hd => h d (List.mem_cons_of_mem c hd)

theorem mapM {γ : Type} {step : γ → Edit α} (l : List γ) (h : ∀ c ∈ l, Keeps I (step c)) :
    Keeps I (l.mapM step) := by
  induction l with
  | nil => exact .pure []
  | cons c l ih =>
    rw [List.mapM_cons]
    exact .bind (h c List.mem_cons_self) fun _ =>
      .bind (ih fun d hd => h d (List.mem_cons_of_mem c hd)) fun _ => .pure _

end Keeps

variable {γ : Type} {I : Forest → Prop} {Q : α → Prop} {R : β → Prop}

/-- An edit keeps a property of forests, and what it answers has a property of its own. -/
def Ensures (I : Forest → Prop) (x : Edit α) (Q : α → Prop) : Prop :=
  ∀ f, I f → I (x.on f).2 ∧ ∀ a, (x.on f).1 = .ok a → Q a

/-- A property of forests stays where an edit fails. -/
def KeepsRefused (I : Forest → Prop) (x : Edit α) : Prop :=
  ∀ f, I f → ∀ e g, x.on f = (.error e, g) → I g

theorem Ensures.keeps (hx : Ensures I x Q) : Keeps I x :=
  fun f hf => (hx f hf).1

theorem Keeps.ensures (hx : Keeps I x) : Ensures I x fun _ => True :=
  fun f hf => ⟨hx f hf, fun _ _ => trivial⟩

theorem Keeps.keepsRefused (hx : Keeps I x) : KeepsRefused I x := by
  intro f hf e g hrun
  have hg := hx f hf
  rwa [hrun] at hg

theorem Keeps.after (hx : Ensures I x Q) (hnext : ∀ a, Q a → Keeps I (next a)) :
    Keeps I (x >>= next) := by
  intro f hf
  obtain ⟨hg, ha⟩ := hx f hf
  rw [on_bind]
  rcases hrun : x.on f with ⟨e | a, g⟩ <;> rw [hrun] at hg ha
  · exact hg
  · exact hnext a (ha a rfl) g hg

theorem KeepsRefused.after (hx : Keeps I x) (hnext : ∀ a, KeepsRefused I (next a)) :
    KeepsRefused I (x >>= next) := by
  intro f hf e h hrun
  have hg := hx f hf
  rw [on_bind] at hrun
  rcases hx : x.on f with ⟨e' | a, g⟩ <;> rw [hx] at hg hrun
  · cases hrun
    exact hg
  · exact hnext a g hg e h hrun

/-- An edit changes nothing where it fails. -/
def Atomic (x : Edit α) (f : Forest) : Prop :=
  ∀ e g, x.on f = (.error e, g) → g = f

theorem Atomic.of_ok (h : x.on f = (.ok a, g)) : x.Atomic f := by
  intro e k hrun
  cases h.symm.trans hrun

theorem Atomic.of_error (h : x.on f = (.error e, f)) : x.Atomic f := by
  intro e' g hrun
  cases h.symm.trans hrun
  rfl

theorem Atomic.map (φ : α → β) (hx : x.Atomic f) : (φ <$> x).Atomic f := by
  intro e g hrun
  rw [on_map] at hrun
  rcases hx' : x.on f with ⟨e' | a, g'⟩ <;> rw [hx'] at hrun <;> cases hrun
  exact hx e g' hx'

theorem KeepsRefused.of_atomic (h : ∀ f, x.Atomic f) : KeepsRefused I x := by
  intro f hf e g hrun
  rwa [h f e g hrun]

/-- An edit ends in a forest that goes with its answer, or in one that a failure leaves. -/
def Ends (x : Edit α) (f : Forest) (good : α → Forest → Prop) (bad : Forest → Prop) : Prop :=
  match x.on f with
  | (.ok a, g) => good a g
  | (.error _, g) => bad g

namespace Ends

variable {good : α → Forest → Prop} {good' : β → Forest → Prop} {bad : Forest → Prop}

theorem of_ok (h : x.on f = (.ok a, g)) (hg : good a g) : x.Ends f good bad := by
  rwa [Ends, h]

theorem of_error (h : x.on f = (.error e, g)) (hg : bad g) : x.Ends f good bad := by
  rwa [Ends, h]

theorem ok (hx : x.Ends f good bad) (h : x.on f = (.ok a, g)) : good a g := by
  rwa [Ends, h] at hx

theorem error (hx : x.Ends f good bad) (h : x.on f = (.error e, g)) : bad g := by
  rwa [Ends, h] at hx

theorem bind (hx : x.Ends f good bad) (hnext : ∀ a g, good a g → (next a).Ends g good' bad) :
    (x >>= next).Ends f good' bad := by
  unfold Ends at hx
  rcases hrun : x.on f with ⟨e | a, g⟩ <;> rw [hrun] at hx
  · exact .of_error (on_bind_of_error hrun) hx
  · have hrest := hnext a g hx
    rwa [Ends, ← on_bind_of_ok hrun] at hrest

theorem after (hx : x.on f = (.ok a, g)) (hnext : (next a).Ends g good' bad) :
    (x >>= next).Ends f good' bad := by
  rwa [Ends, on_bind_of_ok hx]

/-- What is kept goes with any answer, and with any failure. -/
theorem of_keeps (hx : Keeps I x) (hf : I f) (hbad : ∀ g, I g → bad g) :
    x.Ends f (fun _ g => I g) bad := by
  have hg := hx f hf
  rcases hrun : x.on f with ⟨e | a, g⟩ <;> rw [hrun] at hg
  · exact .of_error hrun (hbad g hg)
  · exact .of_ok hrun hg

end Ends

namespace Ensures

theorem pure {a : α} (ha : Q a) : Ensures I (Pure.pure a) Q := by
  rintro f hf
  refine ⟨hf, ?_⟩
  rintro _ ⟨⟩
  exact ha

/-- What fails has no answer. -/
theorem throw (e : ModelError) : Ensures I (MonadExcept.throw e : Edit α) fun _ => False :=
  fun _ hf => ⟨hf, nofun⟩

theorem lift {y : Except ModelError α} (h : ∀ a, y = .ok a → Q a) : Ensures I (liftM y) Q := by
  intro f hf
  rw [on_lift]
  exact ⟨hf, h⟩

theorem bind (hx : Ensures I x Q) (hnext : ∀ a, Q a → Ensures I (next a) R) :
    Ensures I (x >>= next) R := by
  intro f hf
  refine ⟨Keeps.after hx (fun a ha => (hnext a ha).keeps) f hf, fun b hb => ?_⟩
  obtain ⟨a, g, hrun, hb⟩ := on_bind_eq_ok.mp (Prod.ext hb rfl)
  obtain ⟨hg, ha⟩ := hx f hf
  rw [hrun] at hg ha
  exact (hnext a (ha a rfl) g hg).2 b (congrArg Prod.fst hb)

theorem mapM {step : γ → Edit α} (l : List γ) (h : ∀ c ∈ l, Ensures I (step c) Q) :
    Ensures I (l.mapM step) fun as => ∀ a ∈ as, Q a := by
  induction l with
  | nil => exact .pure nofun
  | cons c l ih =>
    rw [List.mapM_cons]
    refine .bind (h c List.mem_cons_self) fun a ha => ?_
    refine .bind (ih fun d hd => h d (List.mem_cons_of_mem c hd)) fun as has => .pure ?_
    exact List.forall_mem_cons.mpr ⟨ha, has⟩

end Ensures

end Edit

end DecayForest
