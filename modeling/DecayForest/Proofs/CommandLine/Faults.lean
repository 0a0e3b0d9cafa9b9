import DecayForest.CommandLine.Usage
import DecayForest.Disk
import DecayForest.Proofs.CommandLine.Outcomes
import DecayForest.Proofs.Group.Faults
/-!
# Faults of commands

A fault for a handle that names nothing has an exit code of its own, and no command ever ends with it.
On the way to a group only files, settings and documents are at fault (`Run.ends_open`). The group that a
command then works on stands, so what is done with it is not refused for a handle (`Run.ends_command`).
`handles_alive` puts this together for documents and for command lines.
-/

namespace DecayForest

/-! ### Faults on the way to a group -/

theorem Fault.proper_of_ne {e : Fault} (h : ∀ d, e ≠ .document d) : e.Proper := by
  refine ⟨?_, fun d hd => absurd hd (h d)⟩
  cases e with
  | document d => exact absurd rfl (h d)
  | _ => exact ne_of_beq_false rfl

theorem Settings.layerOfFile_error {env : Environment} {file : String}
    {content : Except ReadFault String} {e : Fault} (h : layerOfFile env file content = .error e) :
    e.Proper := by
  unfold layerOfFile at h
  split at h
  · cases h
    exact Fault.proper_of_ne nofun
  · split at h <;> cases h
    exact Fault.proper_of_ne nofun

theorem Settings.layerOfVariables_error {env : Environment} {e : Fault}
    (h : layerOfVariables env = .error e) : e.Proper := by
  unfold layerOfVariables at h
  dsimp only [bind, Except.bind] at h
  split at h
  · cases h
    exact Fault.proper_of_ne nofun
  split at h
  · cases h
  · cases h
    exact Fault.proper_of_ne nofun
  split at h
  · cases h
    exact Fault.proper_of_ne nofun
  · cases h
  · cases h
    exact Fault.proper_of_ne nofun

theorem Database.ofFile_error {path : String} {content : Except ReadFault String} {e : Fault}
    (h : ofFile path content = .error e) : e.Proper := by
  unfold ofFile at h
  split at h
  · cases h
    exact Fault.proper_of_ne nofun
  · split at h <;> cases h
    exact Fault.proper_of_ne nofun

namespace Group

variable {database : Database} {path : String} {content : Except ReadFault String} {g : Group}
  {e : Fault}

theorem ofFile_error (h : ofFile database path content = .error e) : e.Proper := by
  unfold ofFile at h
  split at h
  · next text =>
    rcases hread : Group.read database text with d | g <;> rw [hread] at h <;> cases h
    exact Fault.proper_document (read_error hread)
  · cases h
    exact Fault.proper_of_ne nofun
  · cases h
    exact Fault.proper_of_ne nofun

theorem stands_of_ofFile (h : ofFile database path content = .ok g) : g.Stands := by
  unfold ofFile at h
  split at h
  · next text =>
    rcases hread : Group.read database text with d | g' <;> rw [hread] at h <;> cases h
    exact stands_of_read hread
  · cases h
  · cases h

end Group

namespace Run

variable {m : Type → Type} [Monad m] [LawfulMonad m] [Host m]

theorem ends_load (directory : Option String) :
    Ends (fun _ => True) (Settings.load (m := m) directory) := by
  have hlayer : ∀ env file, Ends (fun _ => True) (Settings.readLayer (m := m) env file) := by
    rintro env (_ | file)
    · exact .pure trivial
    · refine (Ends.action _).bind fun present _ => ?_
      cases present with
      | true =>
        exact (Ends.action _).bind fun content _ =>
          .except (fun _ _ => trivial) fun e => Settings.layerOfFile_error
      | false => exact .pure trivial
  refine (Ends.action _).bind fun env _ => ?_
  refine (hlayer env _).bind fun user _ => (hlayer env _).bind fun beside _ => ?_
  refine (Ends.except (fun _ _ => trivial) fun e => Settings.layerOfVariables_error).bind ?_
  exact fun overrides _ => .pure trivial

/-- A group that a command works on stands. -/
theorem ends_open (given : Option String) (file : String) :
    Ends (fun opened => opened.2.Stands) (open? given file : Task m (Settings × Group)) := by
  have hcontent : ∀ path, Ends (fun _ => True) (content path : Task m _) := fun path =>
    ends_onHost (Ends.action _)
  have hdatabase : ∀ settings, Ends (fun _ => True) (databaseOf settings : Task m Database) := by
    intro settings
    unfold databaseOf
    split
    · exact .pure trivial
    · exact (hcontent _).bind fun text _ =>
        .except (fun _ _ => trivial) fun e => Database.ofFile_error
  have hsettings : Ends (fun _ => True) (settingsFor given file : Task m Settings) :=
    (ends_onHost (ends_load _)).bind fun settings _ => .pure trivial
  refine hsettings.bind fun settings _ => (hdatabase settings).bind fun database _ => ?_
  refine (hcontent file).bind fun text _ => ?_
  refine (Ends.except (fun g => Group.stands_of_ofFile) fun e => Group.ofFile_error).bind ?_
  exact fun g hg => .pure hg

/-! ### Commands -/

theorem ends_check (colored : Bool) (given : Option String) (file : String) :
    Ends (fun _ => True) (check colored given file : Task m Unit) := by
  refine (ends_open given file).bind fun ⟨_, g⟩ _ => (ends_say _).bind fun _ _ => ?_
  refine Ends.forM fun r _ => ?_
  split
  · exact ends_say _
  · exact .pure trivial

theorem ends_tree (given : Option String) (file : String) :
    Ends (fun _ => True) (tree given file : Task m Unit) := by
  refine (ends_open given file).bind fun ⟨_, g⟩ hg => ?_
  obtain ⟨drawing, hdrawing⟩ := Group.Stands.exists_outline hg
  refine (ends_settled (fun _ _ => trivial) fun e he => ?_).bind fun _ _ => ends_say _
  cases hdrawing.symm.trans he

theorem ends_expand (colored : Bool) (given : Option String) (file : String) (limit : Option Nat) :
    Ends (fun _ => True) (expand colored given file limit : Task m Unit) := by
  refine (ends_open given file).bind fun ⟨settings, g⟩ hg => ?_
  refine (ends_settled (fun _ hrun => hrun) fun e => Group.Stands.expand_error hg).bind
    fun ⟨h, expansions⟩ hrun => Ends.forM fun x hx => ?_
  obtain ⟨drawing, hdrawing⟩ := Group.Stands.expand_drawn hg hrun x hx
  have hrest : Ends (fun _ => True) (do
      say (·.line (← settled (h.forest.alternativesOutline x.alternatives)).text)
      say (·.line ("  sum of probabilities: " ++ Drawing.probability x.total)) : Task m Unit) := by
    refine (ends_settled (fun _ _ => trivial) fun e he => ?_).bind fun _ _ => ?_
    · cases hdrawing.symm.trans he
    · exact (ends_say _).bind fun _ _ => ends_say _
  dsimp only
  split
  · exact (ends_say _).bind fun _ _ => hrest
  · exact hrest

theorem ends_emit (colored : Bool) (given : Option String) (file : String) (output : Option String) :
    Ends (fun _ => True) (emit colored given file output : Task m Unit) := by
  refine (ends_open given file).bind fun ⟨_, g⟩ hg => ?_
  obtain ⟨text, htext⟩ := Group.Stands.exists_written hg
  refine (ends_settled (fun _ _ => trivial) fun e he => ?_).bind fun text _ => ?_
  · cases htext.symm.trans he
  · split
    · exact ends_say _
    · refine (ends_onHost (Ends.action _)).bind fun written _ => ?_
      cases written with
      | true => exact ends_say _
      | false => exact .throw (Fault.proper_of_ne nofun)

theorem ends_kinematics (colored : Bool) (given : Option String) (file : String) :
    Ends (fun _ => True) (kinematics colored given file : Task m Unit) := by
  refine (ends_open given file).bind fun ⟨_, g⟩ hg => ?_
  refine (ends_settled (fun _ _ => trivial) fun e => Group.impossibleDecays_error hg.linked).bind
    fun found _ => ?_
  split
  · exact ends_say _
  · exact (ends_say _).bind fun _ _ => Ends.forM fun d _ => ends_say _

theorem ends_command (colored : Bool) (i : Invocation) :
    Ends (fun _ => True) (command colored i : Task m Unit) := by
  unfold command
  split
  · exact ends_check colored _ _
  · exact ends_tree _ _
  · exact ends_expand colored _ _ _
  · exact ends_emit colored _ _ _
  · exact ends_kinematics colored _ _
  · unfold id
    split
    · exact .throw (Fault.proper_of_ne nofun)
    · split
      · exact ends_say _
      · exact (ends_say _).bind fun _ _ => ends_say _
  · exact (ends_onHost (ends_load _)).bind fun _ _ => ends_say _
  · exact ends_say _
  · refine (ends_onHost (Ends.action _)).bind fun env _ => ?_
    split
    · exact (ends_say _).bind fun _ _ => ends_say _
    · exact (ends_say _).bind fun _ _ => ends_say _
  · exact .pure trivial

end Run

/-- Whatever the host does, a command ends well or with a proper fault. -/
theorem Invocation.run_proper {m : Type → Type} [Monad m] [LawfulMonad m] [Host m] (colored : Bool)
    (i : Invocation) : Surely (fun r => ∀ e, r.2 = some e → e.Proper) (i.run (m := m) colored) := by
  refine ((Run.ends_command colored i).run {}).bind fun r hr => ?_
  obtain ⟨⟨⟩ | e, o⟩ := r
  · exact .pure fun e he => Option.some.inj he ▸ hr
  · exact .pure nofun

/-- A result that is no fault for a handle. -/
def Alive {α : Type} (r : Except ModelError α) : Prop :=
  ∀ e, r = .error e → ¬ e.isDeadHandle

/-- Handles that name nothing do not reach a user. A document that cannot be read is invalid. The group
of one that can be read is written, drawn, checked for its masses and expanded without a fault for a
handle, also after any expansions, and so are the alternatives of an expansion drawn. No command line ends
with the exit code 70, and one that ends with the fault of a document ends with 65. -/
theorem handles_alive {m : Type → Type} [Monad m] [LawfulMonad m] [Host m] :
    (∀ database source e, Group.read database source = .error e → e.isInvalid) ∧
    (∀ database source g h, Group.read database source = .ok g → g.ExpandsTo h →
      Alive h.written ∧ Alive h.outline ∧ Alive h.impossibleDecays ∧
      ∀ limit, Alive (h.expand limit) ∧ ∀ h' es, h.expand limit = .ok (h', es) →
        ∀ x ∈ es, Alive (h'.forest.alternativesOutline x.alternatives)) ∧
    (∀ env arguments e, CommandLine.read env arguments = .error e → e.exitCode ≠ 70) ∧
    ∀ colored (i : Invocation), Surely (fun r => ∀ e, r.2 = some e →
      e.exitCode ≠ 70 ∧ ∀ d, e = .document d → e.exitCode = 65) (i.run (m := m) colored) := by
  have halive : ∀ {α : Type} {r : Except ModelError α}, (∃ a, r = .ok a) → Alive r := by
    rintro α r ⟨a, rfl⟩ e he
    cases he
  refine ⟨fun _ _ _ => Group.read_error, fun database source g h hg hh => ?_, fun _ _ e _ => ?_,
    Invocation.run_proper⟩
  · have hstands := (Group.stands_of_read hg).expandsTo hh
    refine ⟨halive hstands.exists_written, halive hstands.exists_outline,
      fun e => Group.impossibleDecays_error hstands.linked, fun limit => ⟨?_, ?_⟩⟩
    · exact fun e => hstands.expand_error
    · exact fun h' es hrun x hx => halive (hstands.expand_drawn hrun x hx)
  · cases e <;> exact ne_of_beq_false rfl

/-- A disk with a document that is refused. -/
def loopDisk : Disk where
  entries := [(["loop"], .file "A -> \x7b A \x7d".toUTF8)]

theorem handles_alive_loopDisk :
    (∃ e, Group.twoDecays.expand 1 = .error e ∧ ¬ e.isDeadHandle) ∧
    ∃ d, ((Invocation.run (m := StateM Disk) false ⟨none, .check "loop"⟩).run loopDisk).1.2 =
      some (.document d) ∧ (Fault.document d).exitCode = 65 := by
  obtain ⟨-, hgroup, -, hrun⟩ := handles_alive (m := StateM Disk)
  have hnone : (Group.twoDecays.expand 1).toOption.isNone := by decide +kernel
  have hfault : ((Invocation.run (m := StateM Disk) false ⟨none, .check "loop"⟩).run loopDisk).1.2 =
      some (.document (.refused (.cycle "A"))) := rfl
  refine ⟨?_, _, hfault, ?_⟩
  · rcases hexpand : Group.twoDecays.expand 1 with e | r <;> rw [hexpand] at hnone
    · exact ⟨e, rfl, ((hgroup {} _ _ _ Group.read_twoDecays .refl).2.2.2 1).1 e hexpand⟩
    · cases hnone
  · exact (surely_state_iff.mp (hrun false ⟨none, .check "loop"⟩) loopDisk _ hfault).2 _ rfl

end DecayForest
