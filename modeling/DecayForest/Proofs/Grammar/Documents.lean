import DecayForest.Document
import DecayForest.Proofs.Grammar.Values
import DecayForest.Proofs.Lists
/-!
# Statements and documents as they are written

The text of a statement with a semicolon behind it reads back as that statement, for each kind that
is ever written, and lines of such texts read back as the list of their statements
(`Document.read_lines`).
-/

namespace DecayForest

namespace Grammar

variable {name w text : String} {names ws texts : List String} {ps : ParamList} {rest s : List Char}
  {v : Value} {st : Statement} {ss : List Statement}

/-- A text stands for a statement where a semicolon and a line break follow. No list may open the next
line: behind a keyword it would be taken for the list of a default, if the rest of this line were a
comment. -/
structure Stated (st : Statement) (text : String) : Prop where
  read : ∀ {rest}, Unlisted rest →
    statement (text.toList ++ ';' :: '\n' :: rest) = .read st (';' :: '\n' :: rest)
  start : ∀ rest, blank (text.toList ++ ';' :: '\n' :: rest) =
    .read () (text.toList ++ ';' :: '\n' :: rest)
  unlisted : ∀ rest, (text.toList ++ ';' :: '\n' :: rest).head? ≠ some '['

theorem head?_written (hw : written? name = some w) (rest : List Char) :
    (w.toList ++ rest).head? ≠ some '[' := by
  rcases written?_cases hw with ⟨rfl, hbare, -⟩ | ⟨hw, -⟩
  · obtain ⟨c, l, hl⟩ := List.exists_cons_of_ne_nil (written_ne_nil hw)
    rw [hl]
    rintro ⟨⟩
    cases isWordChar_of_isBare hbare '[' (hl ▸ List.mem_cons_self)
  · rw [hw]
    exact nofun

/-- A statement that begins with a name is decided by what follows the name. -/
theorem stated_of_namedFrom (hw : written? name = some w) (hname : Leading name)
    (hline : Unbroken text) (h : ∀ rest, Ends (text.toList ++ ';' :: rest) ∧
      namedFrom name (text.toList ++ ';' :: rest) = .read st (';' :: rest)) :
    Stated st (w ++ text) := by
  have hsplit : ∀ rest, (w ++ text).toList ++ rest = w.toList ++ (text.toList ++ rest) := fun rest => by
    rw [String.toList_append, List.append_assoc]
  constructor
  case read =>
    intro rest hrest
    obtain ⟨hends, hread⟩ := h ('\n' :: rest)
    have hshown : ShownBefore name (text.toList ++ ';' :: '\n' :: rest) := by
      have hline : ∀ c ∈ text.toList ++ [';'], c ≠ '\n' ∧ c ≠ '\r' :=
        List.forall_mem_append.mpr ⟨hline, List.forall_mem_singleton.mpr (by decide)⟩
      rw [List.append_cons] at hends ⊢
      exact hname.shownBefore hends.stops hline hrest
    rw [hsplit, statement_written hw hshown hends, named, identifier_written hw hends.stops]
    exact hread
  case start =>
    intro rest
    rw [hsplit]
    exact blank_written hw hname.1 (h _).1
  case unlisted =>
    intro rest
    rw [hsplit]
    exact head?_written hw _

/-- A list, or nothing where there are no parameters. -/
def Listed (ps : ParamList) (text : String) : Prop :=
  text = "" ∧ ps = ∅ ∨
    ∃ texts, text = Writing.bracketed texts ∧
      ∀ rest, paramList maxListDepth (text.toList ++ rest) = .read ps rest

theorem Listed.ends (h : Listed ps text) (rest : List Char) : Ends (text.toList ++ ';' :: rest) := by
  rcases h with ⟨rfl, -⟩ | ⟨texts, rfl, -⟩
  · exact ends_of_not (by decide) rest
  · obtain ⟨t, ht⟩ := bracketed_toList texts
    rw [ht]
    exact ends_of_not (by decide) _

theorem Listed.someParams_eq (h : Listed ps text) (rest : List Char) :
    someParams (text.toList ++ ';' :: rest) = .read ps (';' :: rest) := by
  rcases h with ⟨rfl, rfl⟩ | ⟨texts, rfl, hread⟩
  · rfl
  · obtain ⟨t, ht⟩ := bracketed_toList texts
    have hlist := hread (';' :: rest)
    rw [ht, List.cons_append] at hlist ⊢
    rw [someParams, blank_of_not (by decide)]
    simp only [Outcome.bind, hlist]
    rfl

/-- A name with a list behind it is a particle. -/
theorem namedFrom_bracketed
    (h : ∀ rest, paramList maxListDepth ((Writing.bracketed texts).toList ++ rest) = .read ps rest)
    (name : String) (rest : List Char) :
    namedFrom name ((Writing.bracketed texts).toList ++ ';' :: rest) =
      .read (.node name ps) (';' :: rest) := by
  have hparams := Listed.someParams_eq (.inr ⟨texts, rfl, h⟩) rest
  obtain ⟨t, ht⟩ := bracketed_toList texts
  rw [ht, List.cons_append] at hparams ⊢
  rw [namedFrom, blank_of_not (by decide)]
  simp only [Outcome.bind, hparams]
  rfl

theorem stated_node (hw : written? name = some w) (hname : Leading name)
    (hline : ∀ t ∈ texts, Unbroken t)
    (h : ∀ rest, paramList maxListDepth ((Writing.bracketed texts).toList ++ rest) = .read ps rest) :
    Stated (.node name ps) (w ++ Writing.bracketed texts) := by
  have hlist : Listed ps (Writing.bracketed texts) := .inr ⟨texts, rfl, h⟩
  exact stated_of_namedFrom hw hname (unbroken_bracketed hline) fun rest =>
    ⟨hlist.ends rest, namedFrom_bracketed h name rest⟩

theorem stated_param (hw : written? name = some w) (hname : Leading name) (hline : Unbroken text)
    (h : ∀ rest, Ends rest →
      value (paramList maxListDepth) (text.toList ++ rest) = .read v rest ∧
      blank (text.toList ++ rest) = .read () (text.toList ++ rest)) :
    Stated (.param name v) (w ++ " = " ++ text) := by
  rw [String.append_assoc]
  refine stated_of_namedFrom hw hname (.append (by decide) hline) fun rest => ?_
  obtain ⟨hread, hblank⟩ := h (';' :: rest) (ends_of_not (by decide) rest)
  rw [String.toList_append, show " = ".toList = [' ', '=', ' '] from rfl, List.append_assoc]
  refine ⟨ends_of_not (by decide) _, ?_⟩
  have hgap : blank (' ' :: (text.toList ++ ';' :: rest)) = .read () (text.toList ++ ';' :: rest) :=
    hblank
  show ((blank (' ' :: (text.toList ++ ';' :: rest))).bind fun _ s =>
    (value (paramList maxListDepth) s).map fun v => Statement.param name v) = _
  rw [hgap]
  simp only [Outcome.bind, hread]
  rfl

/-! ### Decays -/

/-- A target and the blanks behind it. -/
abbrev target (s : List Char) : Outcome String :=
  (identifier s).bind fun name s => (blank s).map fun _ => name

/-- Targets with a space behind each. -/
def spaced (ws : List String) (rest : List Char) : List Char :=
  ws.flatMap (fun w => w.toList ++ [' ']) ++ '\x7d' :: rest

theorem blank_spaced
    (h : List.Forall₂ (fun name w => written? name = some w ∧ Shown name) names ws)
    (rest : List Char) : blank (spaced ws rest) = .read () (spaced ws rest) := by
  cases h with
  | nil => rfl
  | cons hw _ =>
    rw [spaced, List.flatMap_cons, List.append_assoc, List.append_assoc]
    exact blank_written hw.1 hw.2 (ends_of_not (by decide) _)

theorem series_targets
    (h : List.Forall₂ (fun name w => written? name = some w ∧ Shown name) names ws)
    (rest : List Char) : Series target names (spaced ws rest) ('\x7d' :: rest) := by
  induction h with
  | nil => exact .stop rfl
  | @cons name w names ws hw hws ih =>
    have hsplit : spaced (w :: ws) rest = w.toList ++ ' ' :: spaced ws rest := by
      simp only [spaced, List.flatMap_cons, List.append_assoc, List.cons_append, List.nil_append]
    rw [hsplit]
    have htarget : target (w.toList ++ ' ' :: spaced ws rest) = .read name (spaced ws rest) := by
      rw [target, identifier_written hw.1 (ends_of_not (by decide) _).stops]
      show (blank (spaced ws rest)).map _ = _
      rw [blank_spaced hws]
      rfl
    refine .next htarget ?_ ih
    rw [List.length_append, List.length_cons]
    omega

theorem blank_intercalate
    (h : List.Forall₂ (fun name w => written? name = some w ∧ Shown name) names ws)
    (rest : List Char) :
    blank (' ' :: ((" ".intercalate ws).toList ++ ' ' :: '\x7d' :: rest)) =
      .read () (spaced ws rest) := by
  have hws : ws ≠ [] →
      (" ".intercalate ws).toList ++ ' ' :: '\x7d' :: rest = spaced ws rest := by
    intro hne
    induction ws generalizing names with
    | nil => exact absurd rfl hne
    | cons w ws ih =>
      cases h with
      | cons _ h =>
        rcases ws with _ | ⟨w', ws⟩
        · rw [String.intercalate_singleton]
          simp only [spaced, List.flatMap_cons, List.flatMap_nil, List.append_assoc,
            List.cons_append, List.nil_append]
        · rw [String.intercalate_cons_cons, String.toList_append, String.toList_append,
            List.append_assoc, List.append_assoc, ih h (List.cons_ne_nil w' ws)]
          simp only [spaced, List.flatMap_cons, List.append_assoc, show " ".toList = [' '] from rfl]
  rcases ws with _ | ⟨w, ws⟩
  · rfl
  · rw [hws (List.cons_ne_nil w ws)]
    exact blank_spaced h rest

theorem stated_edge (hw : written? name = some w) (hname : Leading name)
    (h : List.Forall₂ (fun name w => written? name = some w ∧ Shown name) names ws)
    (hlist : Listed ps text) (hline : Unbroken text) :
    Stated (.edge name names ps) (w ++ " -> \x7b " ++ " ".intercalate ws ++ " \x7d" ++ text) := by
  have hnames : ∀ w ∈ ws, Unbroken w := by
    intro w hw
    obtain ⟨name, -, hname, -⟩ := exists_left_of_forall₂ h hw
    exact unbroken_written hname
  rw [String.append_assoc, String.append_assoc, String.append_assoc]
  refine stated_of_namedFrom hw hname (.append (by decide)
    (.append (.intercalate (by decide) hnames) (.append (by decide) hline))) fun rest => ?_
  have hsplit : (" -> \x7b " ++ (" ".intercalate ws ++ (" \x7d" ++ text))).toList ++ ';' :: rest =
      ' ' :: '-' :: '>' :: ' ' :: '\x7b' :: ' ' ::
        ((" ".intercalate ws).toList ++ ' ' :: '\x7d' :: (text.toList ++ ';' :: rest)) := by
    rw [String.toList_append, String.toList_append, String.toList_append,
      show " -> \x7b ".toList = [' ', '-', '>', ' ', '\x7b', ' '] from rfl,
      show " \x7d".toList = [' ', '\x7d'] from rfl]
    simp only [List.append_assoc, List.cons_append, List.nil_append]
  rw [hsplit]
  refine ⟨ends_of_not (by decide) _, ?_⟩
  show ((blank (' ' :: ((" ".intercalate ws).toList ++
      ' ' :: '\x7d' :: (text.toList ++ ';' :: rest)))).bind fun _ s =>
    (many target s).bind fun targets s =>
    (required '\x7d' s).bind fun _ s =>
    (someParams s).map fun params => Statement.edge name targets params) = _
  rw [blank_intercalate h]
  simp only [Outcome.bind, many_of_series (series_targets h _)]
  show ((someParams (text.toList ++ ';' :: rest)).map fun params => Statement.edge name names params) = _
  rw [hlist.someParams_eq]
  rfl

end Grammar

namespace Document

open Grammar

/-- The text of statements, each with a semicolon and a line break behind it. -/
def lines (texts : List String) : List Char :=
  texts.flatMap fun text => text.toList ++ [';', '\n']

variable {texts : List String} {ss : List Statement}

theorem lines_cons (text : String) (texts : List String) :
    lines (text :: texts) = text.toList ++ ';' :: '\n' :: lines texts := by
  simp only [lines, List.flatMap_cons, List.append_assoc, List.cons_append, List.nil_append]

theorem blank_lines (h : List.Forall₂ Stated ss texts) :
    blank (lines texts) = .read () (lines texts) := by
  cases h with
  | nil => rfl
  | cons hs _ =>
    rw [lines_cons]
    exact hs.start _

/-- No line opens with a list. -/
theorem unlisted_lines (h : List.Forall₂ Stated ss texts) : Unlisted (lines texts) := by
  refine ⟨_, blank_lines h, ?_⟩
  cases h with
  | nil => exact nofun
  | cons hs _ =>
    rw [lines_cons]
    exact hs.unlisted _

/-- Each line is one statement. -/
theorem statementsFrom_lines (h : List.Forall₂ Stated ss texts) (hne : ss ≠ []) (source : List Char)
    {bound : List Char} (hbound : texts.length ≤ bound.length) (taken : List (Located Statement))
    (here : Position) :
    ∃ located, statementsFrom source bound taken here (lines texts) = .ok (taken.reverse ++ located) ∧
      located.map Located.value = ss := by
  induction h generalizing bound taken here with
  | nil => exact absurd rfl hne
  | @cons st text ss texts hst hss ih =>
    rcases bound with _ | ⟨c, bound⟩
    · exact absurd hbound (Nat.not_succ_le_zero _)
    · have hread := hst.read (unlisted_lines hss)
      have hsemicolon : blank (';' :: '\n' :: lines texts) = .read () (';' :: '\n' :: lines texts) :=
        blank_of_not (by decide) _
      have hbreak : blank ('\n' :: lines texts) = .read () (lines texts) := blank_lines hss
      rw [lines_cons, statementsFrom, hread]
      simp only [settle, bind, Except.bind, hsemicolon, List.isEmpty_cons, required, if_pos, hbreak]
      cases hss with
      | nil =>
        refine ⟨[⟨here, st⟩], ?_, rfl⟩
        rw [← List.reverse_cons]
        rfl
      | @cons st' text' ss texts hst' hss =>
        obtain ⟨located, hrun, hvalues⟩ := ih (List.cons_ne_nil st' ss)
          (Nat.le_of_succ_le_succ hbound) (⟨here, st⟩ :: taken)
          (here.past (text.toList ++ ';' :: '\n' :: lines (text' :: texts)) (lines (text' :: texts)))
        refine ⟨⟨here, st⟩ :: located, ?_, by rw [List.map_cons, hvalues]⟩
        have hsome : (lines (text' :: texts)).isEmpty = false := by
          rw [lines_cons, List.isEmpty_eq_false_iff]
          exact List.append_ne_nil_of_right_ne_nil _ (List.cons_ne_nil _ _)
        rw [hsome]
        refine hrun.trans ?_
        rw [List.reverse_cons, List.append_assoc]
        rfl

theorem length_le_length_lines (texts : List String) : texts.length ≤ (lines texts).length := by
  induction texts with
  | nil => exact Nat.le_refl 0
  | cons text texts ih =>
    rw [lines_cons, List.length_append]
    simp only [List.length_cons]
    omega

/-- Lines of statements make a document with these statements. -/
theorem read_lines (h : List.Forall₂ Stated ss texts) (hne : ss ≠ []) {source : String}
    (hsource : source.toList = lines texts) :
    ∃ located, read source = .ok located ∧ located.map Located.value = ss := by
  obtain ⟨located, hrun, hvalues⟩ := statementsFrom_lines h hne (lines texts)
    (length_le_length_lines texts) [] (Position.past ⟨1, 1⟩ (lines texts) (lines texts))
  refine ⟨located, ?_, hvalues⟩
  simp only [read, hsource, blank_lines h, settle, bind, Except.bind]
  exact hrun

/-- A statement is a document, with a semicolon behind it or without. -/
theorem read_single {source : String} {st : Statement} {rest : List Char}
    (hblank : blank source.toList = .read () source.toList)
    (h : statement source.toList = .read st rest) (hrest : rest = [] ∨ rest = [';']) :
    ∃ located, read source = .ok [located] ∧ located.value = st := by
  rcases hs : source.toList with _ | ⟨c, s⟩ <;> rw [hs] at hblank h
  · cases h
  · refine ⟨⟨Position.past ⟨1, 1⟩ (c :: s) (c :: s), st⟩, ?_, rfl⟩
    simp only [read, hs, hblank, settle, bind, Except.bind]
    rw [statementsFrom, h]
    rcases hrest with rfl | rfl <;> rfl

end Document

end DecayForest
