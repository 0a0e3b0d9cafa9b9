import DecayForest.CommandLine.Run
/-!
# What comes of running commands

Commands run on any host, so what is said of their results has to hold whatever the host does. `Surely`
says that of the result of an action. For a task, `Run.Ends` says what holds of its answer, and that it
has no improper fault: none for a handle that names nothing. It goes along with the parts of a task.
-/

namespace DecayForest

variable {m : Type → Type} {α β γ : Type}

/-! ### Results of actions -/

section Surely

variable [Monad m] {P : α → Prop} {Q : β → Prop} {x : m α} {next : α → m β}

/-- Whatever comes of an action, its result has a property. -/
def Surely (P : α → Prop) (x : m α) : Prop :=
  ∃ y : m { a // P a }, Subtype.val <$> y = x

variable [LawfulMonad m]

theorem Surely.pure {a : α} (h : P a) : Surely P (Pure.pure a : m α) :=
  ⟨Pure.pure ⟨a, h⟩, map_pure _ _⟩

theorem Surely.bind (hx : Surely P x) (hnext : ∀ a, P a → Surely Q (next a)) :
    Surely Q (x >>= next) := by
  obtain ⟨y, rfl⟩ := hx
  refine ⟨y >>= fun a => (hnext a.1 a.2).choose, ?_⟩
  rw [map_bind, bind_map_left]
  exact congrArg _ (funext fun a => (hnext a.1 a.2).choose_spec)

theorem surely_true (x : m α) : Surely (fun _ => True) x := by
  refine ⟨(fun a => ⟨a, trivial⟩) <$> x, ?_⟩
  rw [← comp_map]
  exact id_map x

/-- A result with a state beside it. -/
theorem Surely.run {σ : Type} {x : StateT σ m α} (hx : Surely P x) (s : σ) :
    Surely (fun r => P r.1) (x.run s) := by
  obtain ⟨y, rfl⟩ := hx
  refine ⟨(fun r => ⟨(r.1.1, r.2), r.1.2⟩) <$> y.run s, ?_⟩
  rw [← comp_map, StateT.run_map]
  rfl

theorem Surely.lift {σ : Type} (hx : Surely P x) : Surely P (StateT.lift x : StateT σ m α) := by
  obtain ⟨y, rfl⟩ := hx
  refine ⟨StateT.lift y, StateT.ext fun s => ?_⟩
  rw [StateT.run_map, StateT.run_lift, StateT.run_lift]
  simp only [map_eq_pure_bind, bind_assoc, pure_bind]

/-- On a host in memory, a property holds surely if it holds from every state. -/
theorem surely_state_iff {σ : Type} {x : StateM σ α} : Surely P x ↔ ∀ s, P (x.run s).1 := by
  constructor
  · rintro ⟨y, rfl⟩ s
    exact (y.run s).1.2
  · exact fun h => ⟨fun s => (⟨(x s).1, h s⟩, (x s).2), rfl⟩

end Surely

/-! ### Answers of tasks -/

/-- A fault that a user may see: not one of the program itself, and that of a document is told to be
so. -/
def Fault.Proper (e : Fault) : Prop :=
  e.exitCode ≠ 70 ∧ ∀ d, e = .document d → e.exitCode = 65

theorem Fault.proper_document {d : DocumentError} (h : d.isInvalid) : (Fault.document d).Proper := by
  have hcode : (Fault.document d).exitCode = 65 := if_pos h
  exact ⟨hcode ▸ by decide, fun _ _ => hcode⟩

namespace Run

section Ends

variable [Monad m] [LawfulMonad m] {P : α → Prop} {Q : β → Prop} {x : ExceptT Fault m α}
  {next : α → ExceptT Fault m β}

/-- Whatever comes of an action that may have faults, its answer has a property, or its fault is
proper. -/
def Ends (P : α → Prop) (x : ExceptT Fault m α) : Prop :=
  Surely (fun r : Except Fault α => match r with
    | .ok a => P a
    | .error e => e.Proper) x.run

theorem Ends.pure {a : α} (h : P a) : Ends P (Pure.pure a : ExceptT Fault m α) :=
  Surely.pure h

theorem Ends.throw {e : Fault} (h : e.Proper) : Ends P (throw e : ExceptT Fault m α) :=
  Surely.pure h

theorem Ends.bind (hx : Ends P x) (hnext : ∀ a, P a → Ends Q (next a)) : Ends Q (x >>= next) := by
  refine Surely.bind hx fun r hr => ?_
  cases r with
  | ok a => exact hnext a hr
  | error e => exact Surely.pure hr

theorem Ends.except {r : Except Fault α} (hok : ∀ a, r = .ok a → P a)
    (herror : ∀ e, r = .error e → e.Proper) : Ends P (liftM r : ExceptT Fault m α) := by
  cases r with
  | ok a => exact .pure (hok a rfl)
  | error e => exact .throw (herror e rfl)

theorem Ends.lift {x : m α} (hx : Surely P x) : Ends P (liftM x : ExceptT Fault m α) := by
  show Surely _ (Except.ok <$> x)
  rw [← bind_pure_comp]
  exact hx.bind fun a ha => .pure ha

theorem Ends.action (x : m α) : Ends (fun _ => True) (liftM x : ExceptT Fault m α) :=
  .lift (surely_true x)

theorem Ends.forM {l : List γ} {step : γ → ExceptT Fault m Unit}
    (h : ∀ c ∈ l, Ends (fun _ => True) (step c)) : Ends (fun _ => True) (l.forM step) := by
  induction l with
  | nil => exact .pure trivial
  | cons c l ih =>
    show Ends _ (step c >>= fun _ => l.forM step)
    exact (h c List.mem_cons_self).bind fun _ _ => ih fun d hd => h d (List.mem_cons_of_mem c hd)

end Ends

section Tasks

variable [Monad m] [LawfulMonad m] {P : α → Prop}

theorem ends_say (write : Output → Output) : Ends (fun _ => True) (say write : Task m Unit) :=
  Ends.action (modify write : StateT Output m PUnit)

theorem ends_onHost {action : ExceptT Fault m α} (h : Ends P action) : Ends P (onHost action) := by
  refine (Ends.lift (Surely.lift h)).bind fun r hr => ?_
  cases r with
  | ok a => exact .pure hr
  | error e => exact .throw hr

theorem ends_settled {r : Except ModelError α} (hok : ∀ a, r = .ok a → P a)
    (herror : ∀ e, r = .error e → ¬ e.isDeadHandle) : Ends P (settled r : Task m α) := by
  cases r with
  | ok a => exact .pure (hok a rfl)
  | error e =>
    exact .throw (Fault.proper_document (DocumentError.isInvalid_refused.mpr (herror e rfl)))

end Tasks

end Run

end DecayForest
