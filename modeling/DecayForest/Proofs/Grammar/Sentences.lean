import DecayForest.Proofs.Grammar.Documents
import DecayForest.Proofs.Grammar.Layout
/-!
# Sentences of the grammar

What the grammar takes for a value, a list, a statement and a document is a relation between it and the
tokens that spell it; spellings leave open how a name is quoted, which commas are set, and whether an empty
list is there. Each rule reads whatever is spelt that way, in any layout, and leaves what follows
(`Reads`). In the end a document that spells some statements is read as these (`Document.read_spelt`).
-/

namespace DecayForest.Grammar

/-! ### Spellings -/

/-- Tokens that spell a value, where lists are spelt as `list` says. -/
inductive ValueSpelt (list : ParamList → List Token → Prop) : Value → List Token → Prop
  | text {t : Token} {s : String} : t.name? = some s → ValueSpelt list (.text s) [t]
  | record {ps : ParamList} {ts : List Token} : list ps ts → ValueSpelt list (.record ps.entries) ts

/-- Tokens that spell an entry: a name alone, or a name and its value. -/
inductive EntrySpelt (list : ParamList → List Token → Prop) : String × Value → List Token → Prop
  | flag {t : Token} {key : String} : t.name? = some key → EntrySpelt list (key, .present) [t]
  | value {t : Token} {key : String} {v : Value} {ts : List Token} : t.name? = some key →
    ValueSpelt list v ts → EntrySpelt list (key, v) (t :: .sign '=' :: ts)

/-- Tokens that spell some entries, each with or without a comma behind it. -/
inductive EntriesSpelt (list : ParamList → List Token → Prop) :
    List (String × Value) → List Token → Prop
  | none : EntriesSpelt list [] []
  | next {e : String × Value} {es : List (String × Value)} {ts comma us : List Token} :
    EntrySpelt list e ts → comma = [] ∨ comma = [.sign ','] → EntriesSpelt list es us →
    EntriesSpelt list (e :: es) (ts ++ (comma ++ us))

/-- Tokens that spell a list with at most so many lists inside one another. Of several entries with one
name the last one counts. -/
def ListSpelt : Nat → ParamList → List Token → Prop
  | 0, _, _ => False
  | room + 1, ps, ts => ∃ es body, ps = .ofEntries es ∧ EntriesSpelt (ListSpelt room) es body ∧
    ts = .sign '[' :: (body ++ [.sign ']'])

/-- Tokens that spell a list, or no tokens for an empty one. -/
def SomeListSpelt (ps : ParamList) (ts : List Token) : Prop :=
  ListSpelt maxListDepth ps ts ∨ ps = ∅ ∧ ts = []

/-- Tokens that spell a statement. -/
inductive StatementSpelt : Statement → List Token → Prop
  | node {t : Token} {name : String} {ps : ParamList} {ts : List Token} : t.name? = some name →
    SomeListSpelt ps ts → StatementSpelt (.node name ps) (t :: ts)
  | edge {t : Token} {source : String} {targets : List String} {ps : ParamList} {names ts : List Token} :
    t.name? = some source → names.map Token.name? = targets.map some → SomeListSpelt ps ts →
    StatementSpelt (.edge source targets ps)
      (t :: .arrow :: .sign '\x7b' :: (names ++ .sign '\x7d' :: ts))
  | defaults {scope : Scope} {word : List Char} {ps : ParamList} {ts : List Token} :
    ListSpelt maxListDepth ps ts → StatementSpelt (.defaults scope ps) (.keyword scope word :: ts)
  | param {t : Token} {name : String} {v : Value} {ts : List Token} : t.name? = some name →
    ValueSpelt (ListSpelt maxListDepth) v ts →
    StatementSpelt (.param name v) (t :: .sign '=' :: ts)

/-- Tokens that spell the statements of a document, with a semicolon between any two of them and with or
without one behind the last. -/
inductive DocumentSpelt : List Statement → List Token → Prop
  | last {st : Statement} {ts semicolon : List Token} : StatementSpelt st ts →
    semicolon = [] ∨ semicolon = [.sign ';'] → DocumentSpelt [st] (ts ++ semicolon)
  | next {st : Statement} {ss : List Statement} {ts us : List Token} : StatementSpelt st ts →
    DocumentSpelt ss us → DocumentSpelt (st :: ss) (ts ++ .sign ';' :: us)

variable {room : Nat} {e : String × Value} {es : List (String × Value)} {ps : ParamList} {v : Value}
  {name : String} {names : List String} {st : Statement} {ss : List Statement} {t : Token}
  {ts us vs : List Token} {s r : List Char} {list : ParamList → List Token → Prop}

/-! ### What comes first -/

theorem ne_sign_of_name? (h : t.name? = some name) (c : Char) :
    (t :: ts).head? ≠ some (.sign c) := by
  rintro ⟨⟩
  cases h

theorem ListSpelt.cons (h : ListSpelt room ps ts) : ∃ body, ts = .sign '[' :: body := by
  cases room with
  | zero => cases h
  | succ room =>
    obtain ⟨es, body, -, -, rfl⟩ := h
    exact ⟨_, rfl⟩

theorem EntrySpelt.cons (h : EntrySpelt list e ts) :
    ∃ t us, ts = t :: us ∧ t.name? = some e.1 := by
  cases h with
  | flag ht => exact ⟨_, _, rfl, ht⟩
  | value ht _ => exact ⟨_, _, rfl, ht⟩

/-- Entries begin with a name. -/
theorem EntriesSpelt.head (h : EntriesSpelt list es ts) {c : Char} (hc : c ≠ ']') :
    (ts ++ .sign ']' :: us).head? ≠ some (.sign c) := by
  cases h with
  | none =>
    rintro ⟨⟩
    exact hc rfl
  | next he _ _ =>
    obtain ⟨t, us, rfl, ht⟩ := he.cons
    exact ne_sign_of_name? ht c

/-! ### Values and lists -/

/-- A rule reads what is spelt in some way, in any layout, and leaves the layout of what follows. -/
def Reads {α : Type} (rule : List Char → Outcome α) (spelt : α → List Token → Prop) : Prop :=
  ∀ a ts us s, spelt a ts → Flush (ts ++ us) s → (rule s).Gives a (Layout us)

theorem value_reads (hlist : Reads (paramList room) (ListSpelt room)) :
    Reads (value (paramList room)) (ValueSpelt (ListSpelt room)) := by
  intro v ts us s hv hs
  cases hv with
  | text ht =>
    have hread := hs.identifier_gives ht
    unfold value
    split
    · next r _ =>
      have hne := hs.head_eq_sign (by decide)
      exact absurd hne (ne_sign_of_name? ht '[')
    · obtain ⟨r, hr, hlayout⟩ := hread
      rw [hr]
      exact ⟨r, rfl, hlayout⟩
  | record hps =>
    have hread := hlist _ _ _ _ hps hs
    obtain ⟨body, rfl⟩ := hps.cons
    obtain ⟨r, rfl, -⟩ := hs.sign
    exact hread.map _

/-- What is between a name and its value is read up to the value. -/
theorem assigns_gives (hs : Layout (.sign '=' :: us) s) : (assigns s).Gives () (Flush us) := by
  refine hs.blank_gives.bind fun s hs => ?_
  refine hs.character_gives.bind fun s hs => ?_
  exact hs.blank_gives

theorem assigns_misses (hs : Layout us s) (hus : us.head? ≠ some (.sign '=')) :
    (assigns s).Misses :=
  hs.blank_gives.bind_misses fun _ hs => (hs.character_misses (by decide) hus).bind

/-- An entry is read, and the comma behind it if there is one. -/
theorem entry_gives (hlist : Reads (paramList room) (ListSpelt room))
    (he : EntrySpelt (ListSpelt room) e ts) {comma : List Token}
    (hcomma : comma = [] ∧ us.head? ≠ some (.sign ',') ∨ comma = [.sign ','])
    (hus : us.head? ≠ some (.sign '=')) (hs : Layout (ts ++ (comma ++ us)) s) :
    (entry (paramList room) s).Gives e (Layout us) := by
  have hassign : (comma ++ us).head? ≠ some (.sign '=') := by
    rcases hcomma with ⟨rfl, -⟩ | rfl
    · exact hus
    · simp
  have hend : ∀ s, Layout (comma ++ us) s →
      ((blank s).bind fun _ s => ((character ',' s).optional s).map fun _ => e).Gives e (Layout us) := by
    intro s hs
    refine hs.blank_gives.bind fun s hs => ?_
    rcases hcomma with ⟨rfl, hne⟩ | rfl
    · exact ((hs.character_misses (by decide) hne).optional hs.layout).map _
    · exact (hs.character_gives.optional s).map _
  refine hs.blank_gives.bind fun s hs => ?_
  cases he with
  | flag ht =>
    -- no `=` follows, so the text behind the name is left as it is
    refine (hs.identifier_gives ht).bind fun s hs => ?_
    refine ((assigns_misses hs hassign).bind.optional hs).bind fun s hs => ?_
    exact hend s hs
  | @value _ _ v _ ht hv =>
    refine (hs.identifier_gives ht).bind fun s hs => ?_
    have hvalue : ((assigns s).bind fun _ s => value (paramList room) s).Gives v (Layout (comma ++ us)) :=
      (assigns_gives hs).bind fun s hs => value_reads hlist _ _ _ s hv hs
    refine (hvalue.optional s).bind fun s hs => ?_
    exact hend s hs

/-- An entry takes a character at least. -/
theorem entry_shortens (h : entry (paramList room) s = .read e r) : r.length < s.length := by
  obtain ⟨⟨⟩, s₁, hblank, h⟩ := Outcome.bind_eq_read.mp h
  obtain ⟨name, s₂, hname, h⟩ := Outcome.bind_eq_read.mp h
  have hrest : Outcome.Within s₂ (.read e r) := h ▸
    ((assigns_within s₂).bind fun _ s => value_within (paramList_within room) s).optional.bind
      fun _ s => (blank_within s).bind fun _ s => (character_within ',' s).optional.map _
  have hlead : s₁ <:+ s := (blank_within s).suffix hblank
  exact Nat.lt_of_le_of_lt hrest.length_le
    (Nat.lt_of_lt_of_le (identifier_shortens hname) hlead.length_le)

/-- The entries of a list are read one after the other, up to its end. -/
theorem exists_series (hlist : Reads (paramList room) (ListSpelt room))
    (hes : EntriesSpelt (ListSpelt room) es ts) (hs : Layout (ts ++ .sign ']' :: us) s) :
    ∃ r, Series (entry (paramList room)) es s r ∧ Layout (.sign ']' :: us) r := by
  induction hes generalizing s with
  | none =>
    have hmiss : (entry (paramList room) s).Misses :=
      hs.blank_gives.bind_misses fun s hs => (hs.identifier_misses (by decide)).bind
    obtain ⟨e, place, hmiss⟩ := hmiss
    exact ⟨s, .stop hmiss, hs⟩
  | @next e es ts comma us' he hcomma hes ih =>
    rw [List.append_assoc, List.append_assoc] at hs
    have hentry := entry_gives hlist he
      (hcomma.imp_left fun h => ⟨h, hes.head (by decide)⟩) (hes.head (by decide)) hs
    obtain ⟨s', hread, hs'⟩ := hentry
    obtain ⟨r, hseries, hr⟩ := ih hs'
    exact ⟨r, .next hread (entry_shortens hread) hseries, hr⟩

theorem paramList_reads (room : Nat) : Reads (paramList room) (ListSpelt room) := by
  induction room with
  | zero => exact fun _ _ _ _ h => h.elim
  | succ room ih =>
    rintro _ _ us s ⟨es, body, rfl, hes, rfl⟩ hs
    rw [List.cons_append, List.append_assoc] at hs
    obtain ⟨r, rfl, hr⟩ := hs.sign
    obtain ⟨r', hseries, hr'⟩ := exists_series ih hes hr
    refine Outcome.Gives.bind ⟨r', many_of_series hseries, hr'⟩ fun s hs => ?_
    refine hs.blank_gives.bind fun s hs => ?_
    exact hs.required_gives.map _

/-- A list is read with what is blank before it. -/
theorem blank_paramList_gives (h : ListSpelt room ps ts) (hs : Layout (ts ++ us) s) :
    ((blank s).bind fun _ s => paramList room s).Gives ps (Layout us) :=
  hs.blank_gives.bind fun s hs => paramList_reads room ps ts us s h hs

theorem someParams_gives (h : SomeListSpelt ps ts) (hus : us.head? ≠ some (.sign '['))
    (hs : Layout (ts ++ us) s) : (someParams s).Gives ps (Layout us) := by
  rcases h with h | ⟨rfl, rfl⟩
  · exact ((blank_paramList_gives h hs).optional s).map _
  · have hlist : ((blank s).bind fun _ s => paramList maxListDepth s).Misses :=
      hs.blank_gives.bind_misses fun s hs => hs.paramList_misses hus maxListDepth
    exact (hlist.optional hs).map _

/-! ### Statements -/

theorem exists_series_targets (hnames : ts.map Token.name? = names.map some)
    (hs : Flush (ts ++ .sign '\x7d' :: us) s) :
    ∃ r, Series target names s r ∧ Flush (.sign '\x7d' :: us) r := by
  induction ts generalizing names s with
  | nil =>
    obtain rfl : names = [] := List.map_eq_nil_iff.mp hnames.symm
    have hmiss : (target s).Misses := (hs.identifier_misses (by decide)).bind
    obtain ⟨e, place, hmiss⟩ := hmiss
    exact ⟨s, .stop hmiss, hs⟩
  | cons t ts ih =>
    rcases names with _ | ⟨name, names⟩
    · cases hnames
    · obtain ⟨ht, hnames⟩ := List.cons.inj hnames
      obtain ⟨s₁, hname, hs₁⟩ := hs.identifier_gives ht
      obtain ⟨s₂, hblank, hs₂⟩ := hs₁.blank_gives
      obtain ⟨r, hseries, hr⟩ := ih hnames hs₂
      have htarget : target s = .read name s₂ := by
        rw [target, hname]
        show (blank s₁).map _ = _
        rw [hblank]
        rfl
      have hlead : s₂ <:+ s₁ := (blank_within s₁).suffix hblank
      exact ⟨r, .next htarget (Nat.lt_of_le_of_lt hlead.length_le (identifier_shortens hname)) hseries, hr⟩

/-- What stands behind a statement: nothing, or a semicolon. -/
def Closes (us : List Token) : Prop :=
  us = [] ∨ us.head? = some (.sign ';')

theorem Closes.ne (h : Closes us) {t : Token} (ht : t ≠ .sign ';') : us.head? ≠ some t := by
  rcases h with rfl | h
  · nofun
  · rw [h]
    rintro ⟨⟩
    exact ht rfl

/-- A statement that begins with a name is no default. -/
theorem Flush.statement_eq (h : Flush (t :: us) s) (ht : t.name? = some name) :
    ∃ r, statement s = namedFrom name r ∧ Layout us r := by
  obtain ⟨r, hread, hr⟩ := h.identifier_gives ht
  have hnamed : named s = namedFrom name r := by rw [named, hread]
  refine ⟨r, ?_, hr⟩
  rw [← hnamed]
  obtain ⟨r, rfl, hproper, -, hstops⟩ := h.uncons
  cases t with
  | bare =>
    obtain ⟨hbare, hkey, hcomment⟩ := hproper
    exact statement_bare hbare hkey (hcomment.legible.shownBefore (hstops rfl)) (hstops rfl)
  | quoted => exact statement_quote _
  | keyword | sign | arrow => cases ht

theorem Closes.flush_cases (h : Closes us) (hs : Flush us s) : s = [] ∨ ∃ r, s = ';' :: r := by
  rcases h with rfl | h
  · cases hs
    exact .inl rfl
  · obtain ⟨us, rfl⟩ := List.head?_eq_some_iff.mp h
    obtain ⟨r, rfl, -⟩ := hs.sign
    exact .inr ⟨r, rfl⟩

theorem namedFrom_node (hlist : SomeListSpelt ps ts) (hus : Closes us) (hs : Layout (ts ++ us) s) :
    (namedFrom name s).Gives (.node name ps) (Layout us) := by
  have hread := (someParams_gives hlist (hus.ne (by simp)) hs).map (Statement.node name)
  refine hs.blank_gives.bind fun ahead hahead => ?_
  -- the list, the semicolon or the end stands next, so neither `=` nor an arrow does
  rcases hlist with hlist | ⟨-, rfl⟩
  · obtain ⟨body, rfl⟩ := hlist.cons
    obtain ⟨r, rfl, -⟩ := hahead.sign
    exact hread
  · rcases hus.flush_cases hahead with rfl | ⟨r, rfl⟩
    · exact hread
    · exact hread

theorem namedFrom_edge (hnames : vs.map Token.name? = names.map some) (hlist : SomeListSpelt ps ts)
    (hus : Closes us)
    (hs : Layout (.arrow :: .sign '\x7b' :: (vs ++ .sign '\x7d' :: (ts ++ us))) s) :
    (namedFrom name s).Gives (.edge name names ps) (Layout us) := by
  refine hs.blank_gives.bind fun s hs => ?_
  obtain ⟨r, rfl, hr⟩ := hs.arrow
  refine hr.blank_gives.bind fun s hs => ?_
  refine hs.required_gives.bind fun s hs => ?_
  refine hs.blank_gives.bind fun s hs => ?_
  obtain ⟨r, hseries, hr⟩ := exists_series_targets hnames hs
  refine Outcome.Gives.bind ⟨r, many_of_series hseries, hr⟩ fun s hs => ?_
  refine hs.required_gives.bind fun s hs => ?_
  exact (someParams_gives hlist (hus.ne (by simp)) hs).map _

theorem namedFrom_param (hv : ValueSpelt (ListSpelt maxListDepth) v ts)
    (hs : Layout (.sign '=' :: (ts ++ us)) s) :
    (namedFrom name s).Gives (.param name v) (Layout us) := by
  refine hs.blank_gives.bind fun s hs => ?_
  obtain ⟨r, rfl, hr⟩ := hs.sign
  refine hr.blank_gives.bind fun s hs => ?_
  exact (value_reads (paramList_reads maxListDepth) v ts us s hv hs).map _

/-- A statement is read up to the semicolon behind it, or up to the end. -/
theorem statement_gives (h : StatementSpelt st ts) (hus : Closes us) (hs : Flush (ts ++ us) s) :
    (statement s).Gives st (Layout us) := by
  cases h with
  | node ht hlist =>
    obtain ⟨r, heq, hr⟩ := hs.statement_eq ht
    rw [heq]
    exact namedFrom_node hlist hus hr
  | @edge _ _ _ _ names ts ht hnames hlist =>
    obtain ⟨r, heq, hr⟩ := hs.statement_eq ht
    rw [heq]
    refine namedFrom_edge hnames hlist hus ?_
    simpa using hr
  | @defaults scope word ps ts hlist =>
    obtain ⟨r, hkey, hr⟩ := hs.keyword?_eq
    obtain ⟨r', hread, hr'⟩ := blank_paramList_gives hlist hr
    refine ⟨r', ?_, hr'⟩
    rw [statement, hkey]
    simp only [hread]
  | param ht hv =>
    obtain ⟨r, heq, hr⟩ := hs.statement_eq ht
    rw [heq]
    exact namedFrom_param hv hr

/-! ### Documents -/

theorem DocumentSpelt.length_le (h : DocumentSpelt ss ts) : ss.length ≤ ts.length := by
  have hpos : ∀ {st ts}, StatementSpelt st ts → 0 < ts.length := by
    rintro _ _ (_ | _ | _ | _) <;> exact Nat.succ_pos _
  induction h with
  | @last st ts _ hst _ =>
    have := hpos hst
    simp only [List.length_append, List.length_cons, List.length_nil]
    omega
  | @next st ss ts us hst _ ih =>
    simp only [List.length_append, List.length_cons]
    omega

theorem DocumentSpelt.ne_nil (h : DocumentSpelt ss ts) : ss ≠ [] ∧ ts ≠ [] := by
  have hle := h.length_le
  cases h <;> refine ⟨List.cons_ne_nil _ _, fun hnil => ?_⟩ <;> rw [hnil] at hle <;> cases hle

end DecayForest.Grammar

namespace DecayForest.Document

open Grammar

variable {ss : List Statement} {ts : List Token} {s : List Char}

/-- Spelt statements are read one by one, up to the end. -/
theorem statementsFrom_spelt (h : DocumentSpelt ss ts) (hs : Flush ts s) (source : List Char)
    {bound : List Char} (hbound : ss.length ≤ bound.length) (taken : List (Located Statement))
    (here : Position) :
    ∃ located, statementsFrom source bound taken here s = .ok (taken.reverse ++ located) ∧
      located.map Located.value = ss := by
  induction h generalizing s bound taken here with
  | @last st ts semicolon hst hsemicolon =>
    rcases bound with _ | ⟨c, bound⟩
    · exact absurd hbound (Nat.not_succ_le_zero _)
    refine ⟨[⟨here, st⟩], ?_, rfl⟩
    rw [← List.reverse_cons]
    have hcloses : Closes semicolon := hsemicolon.imp_right fun h => by rw [h]; rfl
    obtain ⟨s₁, hread, hs₁⟩ := statement_gives hst hcloses hs
    obtain ⟨s₂, hblank, hs₂⟩ := hs₁.blank_gives
    rw [statementsFrom, hread]
    rcases hsemicolon with rfl | rfl
    · cases hs₂
      simp only [settle, bind, Except.bind, hblank]
      rfl
    · obtain ⟨s₃, rfl, hs₃⟩ := hs₂.sign
      obtain ⟨s₄, hblank', hs₄⟩ := hs₃.blank_gives
      cases hs₄
      simp only [settle, bind, Except.bind, hblank, List.isEmpty_cons, required, if_pos, hblank']
      rfl
  | @next st ss ts us hst hss ih =>
    rcases bound with _ | ⟨c, bound⟩
    · exact absurd hbound (Nat.not_succ_le_zero _)
    obtain ⟨s₁, hread, hs₁⟩ := statement_gives hst (.inr rfl) hs
    obtain ⟨s₂, hblank, hs₂⟩ := hs₁.blank_gives
    obtain ⟨s₃, rfl, hs₃⟩ := hs₂.sign
    obtain ⟨s₄, hblank', hs₄⟩ := hs₃.blank_gives
    obtain ⟨located, hrun, hvalues⟩ := ih hs₄ (Nat.le_of_succ_le_succ hbound) (⟨here, st⟩ :: taken)
      (here.past s s₄)
    refine ⟨⟨here, st⟩ :: located, ?_, by rw [List.map_cons, hvalues]⟩
    have hmore : s₄.isEmpty = false := by
      have hlength := hs₄.length_le
      cases s₄ with
      | nil => exact absurd (List.length_eq_zero_iff.mp (Nat.le_zero.mp hlength)) hss.ne_nil.2
      | cons => rfl
    rw [statementsFrom, hread]
    simp only [settle, bind, Except.bind, hblank, List.isEmpty_cons, required, if_pos, hblank', hmore]
    refine hrun.trans ?_
    rw [List.reverse_cons, List.append_assoc]
    rfl

/-- A document is read as the statements that its tokens spell, however these are laid out. -/
theorem read_spelt {source : String} (h : DocumentSpelt ss ts) (hsource : Layout ts source.toList) :
    ∃ located, read source = .ok located ∧ located.map Located.value = ss := by
  obtain ⟨s, hblank, hs⟩ := hsource.blank_gives
  obtain ⟨located, hrun, hvalues⟩ := statementsFrom_spelt h hs source.toList
    (Nat.le_trans h.length_le hs.length_le) [] (Position.past ⟨1, 1⟩ source.toList s)
  refine ⟨located, ?_, hvalues⟩
  simp only [read, hblank, settle, bind, Except.bind]
  exact hrun

/-- A default and a decay behind a comment, close together. -/
def defaultAndDecay : String := "#\nDecAY [a=[b],]; \"decay\"->\x7bc/ \"d\"\x7d;"

theorem read_spelt_defaultAndDecay :
    ∃ ts, Layout ts defaultAndDecay.toList ∧
      DocumentSpelt [.defaults .decay (.ofEntries [("a", .record [("b", .flag true)])]),
        .edge "decay" ["c/", "d"] ∅] ts ∧
      ∃ located, read defaultAndDecay = .ok located ∧
        located.map Located.value =
          [.defaults .decay (.ofEntries [("a", .record [("b", .flag true)])]),
            .edge "decay" ["c/", "d"] ∅] := by
  let list : List Token := [.sign '[', .bare "a", .sign '=', .sign '[', .bare "b", .sign ']', .sign ',',
    .sign ']']
  let decay : List Token := [.quoted "decay", .arrow, .sign '\x7b', .bare "c/", .quoted "d",
    .sign '\x7d']
  have hinner : ListSpelt 63 (.ofEntries [("b", .flag true)]) [.sign '[', .bare "b", .sign ']'] :=
    ⟨[("b", .flag true)], _, rfl, .next (.flag rfl) (.inl rfl) .none, rfl⟩
  have hlist : ListSpelt maxListDepth (.ofEntries [("a", .record [("b", .flag true)])]) list :=
    ⟨[("a", .record [("b", .flag true)])], _, rfl,
      .next (.value rfl (.record hinner)) (.inr rfl) .none, rfl⟩
  have hdecay : StatementSpelt (.edge "decay" ["c/", "d"] ∅) decay :=
    @StatementSpelt.edge (.quoted "decay") _ _ ∅ [.bare "c/", .quoted "d"] [] rfl rfl
      (.inr ⟨rfl, rfl⟩)
  have hspelt : DocumentSpelt [.defaults .decay (.ofEntries [("a", .record [("b", .flag true)])]),
      .edge "decay" ["c/", "d"] ∅]
      (.keyword .decay ['D', 'e', 'c', 'A', 'Y'] :: list ++ .sign ';' :: (decay ++ [.sign ';'])) :=
    .next (.defaults hlist) (.last hdecay (.inr rfl))
  have hend : Flush (decay ++ [.sign ';']) "\"decay\"->\x7bc/ \"d\"\x7d;".toList :=
    .beside (by decide) nofun <| .beside (by decide) nofun <| .beside (by decide) nofun <|
      .spaced (by decide) <| .beside (by decide) nofun <| .beside (by decide) nofun <|
        .beside (by decide) nofun .nil
  have hflush : Flush (.keyword .decay ['D', 'e', 'c', 'A', 'Y'] :: list ++
      .sign ';' :: (decay ++ [.sign ';'])) "DecAY [a=[b],]; \"decay\"->\x7bc/ \"d\"\x7d;".toList :=
    .spaced (by decide) <| .beside (by decide) nofun <| .beside (by decide) (by decide) <|
      .beside (by decide) nofun <| .beside (by decide) nofun <| .beside (by decide) (by decide) <|
        .beside (by decide) nofun <| .beside (by decide) nofun <| .beside (by decide) nofun <|
          .spaced (by decide) hend
  have hcomment : Filler ['#', '\n'] := @Filler.line ['#'] [] [] '\n' (.inr rfl) nofun (.inl rfl) .none
  have hlayout : Layout _ defaultAndDecay.toList := ⟨_, _, hcomment, hflush, rfl⟩
  exact ⟨_, hlayout, hspelt, read_spelt hspelt hlayout⟩

end DecayForest.Document
