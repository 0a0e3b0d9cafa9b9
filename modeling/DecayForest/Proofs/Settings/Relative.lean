import DecayForest.Disk
import DecayForest.Proofs.Lists
import DecayForest.Proofs.Paths
import DecayForest.Settings
/-!
# Relative paths in settings

A relative path in the file beside the documents is expanded and joined with the directory of that file, and
what comes of that is expanded once more when all layers are in place (`loaded_relative`). The second
expansion does nothing where the joined path has neither a dollar sign nor a tilde in front. Otherwise it
reaches text that is none of the file's, such as the name of the directory (`not_loaded_joined`).
-/

namespace DecayForest.Settings

/-! ### Loading from a disk -/

section

variable {α β : Type} {d : Disk}

/-- A task leaves a disk as it is, and tells what it tells there. -/
def Answers (d : Disk) (x : ExceptT Fault (StateM Disk) α) (answer : Except Fault α) : Prop :=
  x.run.run d = (answer, d)

theorem Answers.bind {x : ExceptT Fault (StateM Disk) α} {answer : Except Fault α}
    {next : α → ExceptT Fault (StateM Disk) β} {rest : α → Except Fault β} (hx : Answers d x answer)
    (hnext : ∀ a, Answers d (next a) (rest a)) : Answers d (x >>= next) (answer >>= rest) := by
  rw [Answers, ExceptT.run_bind, StateT.run_bind, hx]
  rcases answer with e | a
  · rfl
  · exact hnext a

theorem Answers.bind_ok {x : ExceptT Fault (StateM Disk) α} {a : α} {answer : Except Fault β}
    {next : α → ExceptT Fault (StateM Disk) β} (hx : Answers d x (.ok a))
    (hnext : Answers d (next a) answer) : Answers d (x >>= next) answer := by
  rw [Answers, ExceptT.run_bind, StateT.run_bind, hx]
  exact hnext

theorem answers_except (answer : Except Fault α) :
    Answers d (liftM answer : ExceptT Fault (StateM Disk) α) answer := by
  rcases answer with e | a <;> rfl

theorem answers_pure (a : α) : Answers d (pure a) (.ok a) := rfl

end

/-- The layer of a file on a disk, where there is one. -/
def layerOn (d : Disk) : Option String → Except Fault Layer
  | none => .ok {}
  | some file =>
    if ((d.locate file).toOption.bind d.entry?).isSome then
      layerOfFile d.environment file (d.read file)
    else .ok {}

/-- What comes of loading the settings from a disk. -/
def loaded (d : Disk) (directory : Option String) : Except Fault Settings :=
  ((load (m := StateM Disk) directory).run.run d).1

variable {d : Disk} {env : Environment} {directory file text r : String} {l overrides : Layer} {s : Settings}

theorem answers_readLayer (d : Disk) (file : Option String) :
    Answers d (readLayer d.environment file) (layerOn d file) := by
  rcases file with _ | file
  · rfl
  have hpresent : Answers d (liftM (Host.isPresent (m := StateM Disk) file))
    (.ok ((d.locate file).toOption.bind d.entry?).isSome) := rfl
  have hread : Answers d (liftM (Host.read (m := StateM Disk) file)) (.ok (d.read file)) := rfl
  refine hpresent.bind_ok ?_
  rw [layerOn]
  cases ((d.locate file).toOption.bind d.entry?).isSome with
  | true => exact hread.bind_ok (answers_except _)
  | false => rfl

theorem answers_load (d : Disk) (directory : Option String) : Answers d (load directory) (do
    let user ← layerOn d (globalFile? d.environment)
    let beside ← layerOn d (directory.map localFile)
    let overrides ← layerOfVariables d.environment
    return ofLayers d.environment [user, beside, overrides]) := by
  have henv : Answers d (liftM (Host.environment (m := StateM Disk))) (.ok d.environment) := rfl
  refine henv.bind_ok ?_
  refine (answers_readLayer d _).bind fun user => ?_
  refine (answers_readLayer d _).bind fun beside => ?_
  exact (answers_except _).bind fun overrides => answers_pure _

theorem loaded_eq_ok : loaded d (some directory) = .ok s ↔ ∃ user beside overrides,
    layerOn d (globalFile? d.environment) = .ok user ∧
    layerOn d (some (localFile directory)) = .ok beside ∧
    layerOfVariables d.environment = .ok overrides ∧
    ofLayers d.environment [user, beside, overrides] = s := by
  have hload : loaded d (some directory) = _ := congrArg Prod.fst (answers_load d (some directory))
  rw [hload]
  constructor
  · intro h
    obtain ⟨user, huser, h⟩ := exists_of_bind_eq_ok h
    obtain ⟨beside, hbeside, h⟩ := exists_of_bind_eq_ok h
    obtain ⟨overrides, hoverrides, h⟩ := exists_of_bind_eq_ok h
    cases h
    exact ⟨user, beside, overrides, huser, hbeside, hoverrides, rfl⟩
  · rintro ⟨user, beside, overrides, huser, hbeside, hoverrides, rfl⟩
    rw [huser]
    dsimp only [bind, Except.bind]
    rw [Option.map_some, hbeside, hoverrides]
    rfl

/-! ### The file beside the documents -/

theorem layerOn_of_read (hread : d.read file = .ok text) (hlayer : layerOf? text = some l) :
    layerOn d (some file) =
      .ok { l with database := l.database.map (fromFile d.environment file) } := by
  have hpresent : ((d.locate file).toOption.bind d.entry?).isSome = true := by
    obtain ⟨place, hplace, hentry⟩ := exists_of_bind_eq_ok hread
    rw [hplace]
    show (d.entry? place).isSome = true
    rcases hd : d.entry? place with _ | e
    · rw [hd] at hentry
      cases hentry
    · rfl
  rw [layerOn, if_pos hpresent, hread]
  unfold layerOfFile
  dsimp only
  rw [hlayer]

/-- Where no variable sets the path, the layer of the variables leaves it alone. -/
theorem database_eq_none (h : layerOfVariables env = .ok overrides)
    (hgiven : ∀ path, given env "database" ≠ .whole path) : overrides.database = none := by
  rcases hd : given env "database" with _ | path | _
  case whole => exact (hgiven path hd).elim
  all_goals
    unfold layerOfVariables at h
    rw [hd] at h
    dsimp only [bind, Except.bind] at h
    split at h
    · cases h
    split at h
    · cases h
      rfl
    · cases h
    split at h
    · cases h
    · cases h
      rfl
    · cases h

/-- A relative path in the file beside the documents is joined with their directory. -/
theorem exists_fromFile (directory : String) (hrelative : Path.isAbsolute (expandPath env r) = false) :
    ∃ above, fromFile env (localFile directory) r = Path.join above (expandPath env r) ∧
      above.toList <+: directory.toList ∧ above.toList.head? = directory.toList.head? ∧
      Path.way above.toList = Path.way directory.toList := by
  have hfile : '/' ∉ ".graphphys.toml".toList := by decide
  obtain ⟨above, hparent, habove⟩ := Path.parent_join hfile (by decide) rfl directory
  refine ⟨above, ?_, habove⟩
  rw [fromFile, localFile, hparent]
  dsimp only
  rw [hrelative]
  rfl

theorem database_ofLayers {user beside : Layer} {path : String} (hbeside : beside.database = some path)
    (hoverrides : overrides.database = none) :
    (ofLayers env [user, beside, overrides]).database = some (expandPath env path) := by
  simp [ofLayers, under, hbeside, hoverrides]

section

variable (hread : d.read (localFile directory) = .ok text) (hlayer : layerOf? text = some l)
  (hdatabase : l.database = some r)
include hread hlayer hdatabase

theorem layerOn_localFile : layerOn d (some (localFile directory)) =
    .ok { l with database := some (fromFile d.environment (localFile directory) r) } := by
  rw [layerOn_of_read hread hlayer, hdatabase, Option.map_some]

/-- With the file beside the documents in order, settings are loaded if the other layers can be taken. -/
theorem exists_loaded_iff : (∃ s, loaded d (some directory) = .ok s) ↔
    (∃ user, layerOn d (globalFile? d.environment) = .ok user) ∧
      ∃ overrides, layerOfVariables d.environment = .ok overrides := by
  simp only [loaded_eq_ok]
  constructor
  · rintro ⟨s, user, beside, overrides, huser, -, hoverrides, -⟩
    exact ⟨⟨user, huser⟩, overrides, hoverrides⟩
  · rintro ⟨⟨user, huser⟩, overrides, hoverrides⟩
    exact ⟨_, user, _, overrides, huser, layerOn_localFile hread hlayer hdatabase, hoverrides, rfl⟩

variable (hgiven : ∀ path, given d.environment "database" ≠ .whole path)
include hgiven

theorem database_loaded (h : loaded d (some directory) = .ok s) : s.database =
    some (expandPath d.environment (fromFile d.environment (localFile directory) r)) := by
  obtain ⟨user, beside, overrides, -, hbeside, hoverrides, rfl⟩ := loaded_eq_ok.mp h
  cases (layerOn_localFile hread hlayer hdatabase).symm.trans hbeside
  exact database_ofLayers rfl (database_eq_none hoverrides hgiven)

end

/-- Let the file beside the documents set a path that expands to a relative one, and let no variable set the
path. Then settings are loaded exactly if the file of the user and the variables can be taken, and their path
is what the relative one gives when it is joined with the directory of the file and expanded again. That
directory is the one of the documents. If the joined path has no dollar sign and no tilde in front, then it
is that path. -/
theorem loaded_relative (hread : d.read (localFile directory) = .ok text)
    (hlayer : layerOf? text = some l) (hdatabase : l.database = some r)
    (hrelative : Path.isAbsolute (expandPath d.environment r) = false)
    (hgiven : ∀ path, given d.environment "database" ≠ .whole path) :
    ((∃ s, loaded d (some directory) = .ok s) ↔
      (∃ user, layerOn d (globalFile? d.environment) = .ok user) ∧
        ∃ overrides, layerOfVariables d.environment = .ok overrides) ∧
    ∃ above, Path.Same above directory ∧ ∀ s, loaded d (some directory) = .ok s →
      s.database = some (expandPath d.environment (Path.join above (expandPath d.environment r))) ∧
      ('$' ∉ (Path.join directory (expandPath d.environment r)).toList →
        Path.hasTilde (Path.join directory (expandPath d.environment r)) = false →
          ∃ path, s.database = some path ∧
            Path.Same path (Path.join directory (expandPath d.environment r))) := by
  obtain ⟨above, hfrom, hprefix, hhead, hway⟩ := exists_fromFile directory hrelative
  have hsame : Path.Same above directory := ⟨by rw [Path.isAbsolute, Path.isAbsolute, hhead], hway⟩
  refine ⟨exists_loaded_iff hread hlayer hdatabase, above, hsame, fun s hs => ?_⟩
  have hpath := database_loaded hread hlayer hdatabase hgiven hs
  rw [hfrom] at hpath
  refine ⟨hpath, fun hdollar htilde => ⟨_, hpath, ?_⟩⟩
  have hdollar' : '$' ∉ (Path.join above (expandPath d.environment r)).toList := by
    rw [Path.mem_join (by decide) _ hrelative] at hdollar ⊢
    exact fun h => hdollar (h.imp_left fun habove => hprefix.subset habove)
  have htilde' : Path.hasTilde (Path.join above (expandPath d.environment r)) = false := by
    rwa [Path.hasTilde, Path.head?_join _ hrelative, ← hhead, ← Path.head?_join _ hrelative] at htilde
  rw [expandPath, Path.expand_plain _ _ hdollar' htilde']
  exact hsame.join hrelative

/-- A file with a relative path, in a directory whose name holds a dollar sign. -/
def dollarDisk : Disk where
  entries := [(["a$B"], .directory), (["a$B", ".graphphys.toml"], .file "database = \"p.toml\"".toUTF8)]
  environment := { values := [("B", "c")] }

/-- The second expansion takes the name of the directory for that of a variable. -/
theorem not_loaded_joined : ¬ ∀ (d : Disk) (directory text r : String) (l : Layer),
    d.read (localFile directory) = .ok text → layerOf? text = some l → l.database = some r →
    Path.isAbsolute (expandPath d.environment r) = false →
    (∀ path, given d.environment "database" ≠ .whole path) →
    ∀ s, loaded d (some directory) = .ok s →
      ∃ path, s.database = some path ∧
        Path.Same path (Path.join directory (expandPath d.environment r)) := by
  intro h
  have hread : dollarDisk.read (localFile "a$B") = .ok "database = \"p.toml\"" := rfl
  have hlayer : layerOf? "database = \"p.toml\"" = some ⟨some "p.toml", none⟩ := rfl
  have hgiven : ∀ path, given dollarDisk.environment "database" ≠ .whole path := nofun
  obtain ⟨s, hs⟩ := (exists_loaded_iff hread hlayer rfl).mpr ⟨⟨{}, rfl⟩, ⟨_, rfl⟩⟩
  have hdatabase := database_loaded hread hlayer rfl hgiven hs
  obtain ⟨path, hpath, -, hway⟩ := h dollarDisk "a$B" _ _ _ hread hlayer rfl rfl hgiven s hs
  have hexpanded : expandPath dollarDisk.environment
      (fromFile dollarDisk.environment (localFile "a$B") "p.toml") = "ac/p.toml" := by decide +kernel
  rw [hexpanded] at hdatabase
  cases hdatabase.symm.trans hpath
  exact absurd hway (by decide)

/-- A file with a relative path that starts at the home directory of the user, which is relative too. -/
def relativeHome : Disk where
  entries := [(["a"], .directory), (["a", ".graphphys.toml"], .file "database = \"~/$B\"".toUTF8)]
  environment := { values := [("HOME", "h"), ("B", "c")] }

theorem loaded_relative_relativeHome :
    ∃ s, loaded relativeHome (some "a/.") = .ok s ∧ ∃ path, s.database = some path ∧
      Path.Same path "a/h/c" := by
  have hread : relativeHome.read (localFile "a/.") = .ok "database = \"~/$B\"" := rfl
  have hlayer : layerOf? "database = \"~/$B\"" = some ⟨some "~/$B", none⟩ := rfl
  obtain ⟨hloads, above, -, hpath⟩ := loaded_relative hread hlayer rfl rfl nofun
  obtain ⟨s, hs⟩ := hloads.mpr ⟨⟨{}, rfl⟩, ⟨_, rfl⟩⟩
  obtain ⟨-, hplain⟩ := hpath s hs
  obtain ⟨path, hdatabase, hsame⟩ := hplain (by decide) (by decide)
  exact ⟨s, hs, path, hdatabase, hsame⟩

end DecayForest.Settings
