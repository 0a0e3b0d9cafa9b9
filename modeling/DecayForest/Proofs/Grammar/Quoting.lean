import DecayForest.Proofs.Grammar.Layout
import DecayForest.Proofs.Grammar.Yield
import DecayForest.Proofs.Grammar.Documents
/-!
# Whether spellings read back

A name is spelled without quotes where it is a bare identifier and no keyword. Whether that reads back in a
document is another question, as comments are skipped and keywords are tried before a name is read. What is
written reads back exactly where the name is seen (`ShownBefore`), and the text behind an equals sign
(`Shown`): see `Document.states_written_iff`. Names and texts in quotes always are, and bare ones unless
a comment opens in them, at once or behind a keyword.
-/

namespace DecayForest

namespace Grammar

variable {name text w v word : String} {l s t next rest more : List Char} {ps : ParamList} {k : String}
  {x : Value} {inner : List Char → Outcome ParamList} {α : Type} {item : List Char → Outcome α}

/-! ### What is seen is read -/

/-- A list with one entry named `k`, and a semicolon. -/
def oneEntry (w : String) : String :=
  "[k=" ++ w ++ "];"

theorem oneEntry_toList (w : String) :
    (oneEntry w).toList = '[' :: 'k' :: '=' :: (w.toList ++ [']', ';']) := by
  rw [oneEntry, String.toList_append, String.toList_append, List.append_assoc]
  rfl

theorem bracketed_oneEntry (w : String) :
    (Writing.bracketed ["k" ++ "=" ++ w]).toList ++ [';'] = (oneEntry w).toList := by
  rw [oneEntry_toList, Writing.bracketed, String.intercalate_singleton]
  simp only [String.toList_append, List.append_assoc]
  rfl

theorem ends_oneEntry (w : String) : Ends (oneEntry w).toList := by
  rw [oneEntry_toList]
  exact ends_of_not (by decide) _

theorem statement_shown (hw : written? name = some w) (hs : ShownBefore name next) (hnext : Ends next) :
    blank (w.toList ++ next) = .read () (w.toList ++ next) ∧
      statement (w.toList ++ next) = namedFrom name next := by
  refine ⟨blank_written hw (fun hbare hkey => (hs hbare hkey).1) hnext, ?_⟩
  rw [statement_written hw hs hnext, named, identifier_written hw hnext.stops]

theorem namedFrom_oneEntry (hv : written? text = some v) (htext : Shown text) (name : String) :
    namedFrom name (oneEntry v).toList = .read (.node name (.ofEntries [("k", .text text)])) [';'] := by
  have hentered : Entered (paramList 63) ("k", .text text) ("k" ++ "=" ++ v) :=
    entered_value rfl (by decide) fun _ hrest => ⟨value_text hv hrest, blank_written hv htext hrest⟩
  have hlist : ∀ rest, paramList maxListDepth ((Writing.bracketed ["k" ++ "=" ++ v]).toList ++ rest) =
      .read (.ofEntries [("k", .text text)]) rest := paramList_entered (.cons hentered .nil)
  rw [← bracketed_oneEntry]
  exact namedFrom_bracketed hlist name []

/-! ### What is read was seen -/

theorem not_mem_of_isBare (h : isBare name = true) : '\x22' ∉ name.toList := fun hmem =>
  absurd (isWordChar_of_isBare h _ hmem) (by decide)

theorem not_mem_of_isQuotable (h : name.toList.all isQuotable = true) : '\x22' ∉ name.toList := fun hmem =>
  absurd (List.all_eq_true.mp h _ hmem) (by decide)

theorem written?_of_isBare (hbare : isBare name = true) (hkey : isKeyword name = false) :
    written? name = some name := by
  rw [written?, hbare, hkey]
  rfl

/-- A statement about a particle begins with its name, and is no default. -/
theorem statement_eq_node (h : statement s = .read (.node name ps) t) : named s = .read (.node name ps) t ∧
    ∀ scope r, keyword? s = some (scope, r) →
      ((blank r).bind fun _ s => paramList maxListDepth s).Misses := by
  unfold statement at h
  split at h
  · next hnone => exact ⟨h, fun scope r hk => by cases hnone.symm.trans hk⟩
  · next scope r hsome =>
    split at h
    · cases h
    · cases h
    · next e place hmiss =>
      refine ⟨h, fun scope' r' hk => ?_⟩
      obtain ⟨-, rfl⟩ := Prod.mk.inj (Option.some.inj (hsome.symm.trans hk))
      exact ⟨e, place, hmiss⟩

/-- It goes on with the list of the particle. -/
theorem namedFrom_eq_node (h : namedFrom k s = .read (.node name ps) t) :
    k = name ∧ someParams s = .read ps t := by
  obtain ⟨_, _, _, h⟩ := Outcome.bind_eq_read.mp h
  split at h
  · obtain ⟨_, _, _, h⟩ := Outcome.bind_eq_read.mp h
    obtain ⟨_, _, _, h⟩ := Outcome.bind_eq_read.mp h
    cases h
  · obtain ⟨_, _, _, h⟩ := Outcome.bind_eq_read.mp h
    obtain ⟨_, _, _, h⟩ := Outcome.bind_eq_read.mp h
    obtain ⟨_, _, _, h⟩ := Outcome.bind_eq_read.mp h
    obtain ⟨_, _, _, h⟩ := Outcome.bind_eq_read.mp h
    obtain ⟨_, _, _, h⟩ := Outcome.bind_eq_read.mp h
    obtain ⟨_, _, _, h⟩ := Outcome.bind_eq_read.mp h
    cases h
  · obtain ⟨_, _, hps, h⟩ := Outcome.bind_eq_read.mp h
    cases h
    exact ⟨rfl, hps⟩

theorem named_eq_node (h : named s = .read (.node name ps) t) :
    ∃ r, identifier s = .read name r ∧ namedFrom name r = .read (.node name ps) t := by
  unfold named at h
  split at h
  · next k r hid =>
    obtain ⟨rfl, -⟩ := namedFrom_eq_node h
    exact ⟨r, hid, h⟩
  · cases h
  · cases h
  · cases h

/-! ### Names that were seen -/

theorem opensComment_of_blank (h : blank l = .read () s) : opensComment s = false := by
  rcases blank_stops l with ⟨_, _, hfault⟩ | ⟨_, hread, hstop⟩
  · cases hfault.symm.trans h
  · cases hread.symm.trans h
    exact hstop

/-- What is read without quotes, and where no comment opens, opens none. -/
theorem opensComment_of_identifier (hs : opensComment s = false) (hquote : s.head? ≠ some '\x22')
    (h : identifier s = .read name t) : opensComment name.toList = false := by
  unfold identifier at h
  split at h
  · exact absurd rfl hquote
  · obtain ⟨-, rfl⟩ := bareId_split h
    exact opensComment_append_eq_false hs

theorem afterWord?_of_append {w : List Char} (h : afterWord? w l = some more) (rest : List Char) :
    afterWord? w (l ++ rest) = some (more ++ rest) := by
  induction w generalizing l with
  | nil =>
    cases h
    rfl
  | cons k w ih =>
    rcases l with _ | ⟨c, l⟩
    · cases h
    · rw [afterWord?] at h
      rw [List.cons_append, afterWord?]
      split at h
      · next hc => rw [if_pos hc, ih h]
      · cases h

theorem not_misses_read (a : α) (s : List Char) : ¬ (Outcome.read a s).Misses := by
  rintro ⟨_, _, ⟨⟩⟩

theorem not_misses_fault (expected : Expected) (place : List Char) :
    ¬ (Outcome.fault expected place : Outcome α).Misses := by
  rintro ⟨_, _, ⟨⟩⟩

theorem not_misses_manyFrom (bound : List Char) (before : List α) (s : List Char) :
    ¬ (manyFrom item bound before s).Misses := by
  induction bound generalizing before s with
  | nil => exact not_misses_read _ _
  | cons c bound ih =>
    rw [manyFrom]
    split
    · exact ih _ _
    · exact not_misses_read _ _
    · exact not_misses_fault _ _

theorem not_misses_bind {β : Type} {o : Outcome α} {f : α → List Char → Outcome β} (ho : ¬ o.Misses)
    (hf : ∀ a r, ¬ (f a r).Misses) : ¬ (o.bind f).Misses := by
  cases o with
  | read a r => exact hf a r
  | miss e place => exact absurd ⟨e, place, rfl⟩ ho
  | fault => exact not_misses_fault _ _

theorem not_misses_blank (s : List Char) : ¬ (blank s).Misses := by
  rintro ⟨e, place, hmiss⟩
  rcases blank_stops s with ⟨_, _, h⟩ | ⟨_, h, -⟩ <;> cases h.symm.trans hmiss

/-- What opens with a bracket is a list, or no rule applies. -/
theorem not_misses_paramList (s : List Char) : ¬ (paramList maxListDepth ('[' :: s)).Misses := by
  refine not_misses_bind (not_misses_manyFrom s [] s) fun ps s => ?_
  refine not_misses_bind (not_misses_blank s) fun _ s =>
    not_misses_bind ?_ fun _ s => not_misses_read _ s
  rcases s with _ | ⟨c, s⟩
  · exact not_misses_fault _ _
  · rw [required]
    split
    · exact not_misses_read _ _
    · exact not_misses_fault _ _

theorem paramList_of_someParams (h : someParams ('[' :: s) = .read ps t) :
    paramList maxListDepth ('[' :: s) = .read ps t := by
  rw [someParams, blank_of_not (by decide)] at h
  simp only [Outcome.bind] at h
  rcases hlist : paramList maxListDepth ('[' :: s) with ⟨ps', r⟩ | ⟨e, place⟩ | ⟨e, place⟩ <;>
    rw [hlist] at h <;> cases h
  · rfl
  · exact absurd ⟨e, place, hlist⟩ (not_misses_paramList s)

/-- A bare name that is read from the start of a text was seen there. -/
theorem shownBefore_of_node (hbare : isBare name = true) (hkey : isKeyword name = false)
    (hnext : Ends next) (hblank : blank (name.toList ++ next) = .read () s)
    (h : statement s = .read (.node name ps) t) (hquote : s.head? ≠ some '\x22') :
    ShownBefore name next := by
  obtain ⟨hnamed, hdefault⟩ := statement_eq_node h
  have hopen : opensComment name.toList = false := by
    obtain ⟨r, hid, -⟩ := named_eq_node hnamed
    exact opensComment_of_identifier (opensComment_of_blank hblank) hquote hid
  obtain rfl : name.toList ++ next = s := by
    cases (blank_bare hbare hopen hnext.stops).symm.trans hblank
    rfl
  refine fun _ _ => ⟨hopen, fun word hword more hmore => ?_⟩
  have hwords : ∀ d ∈ more, isWordChar d = true := fun d hd =>
    isWordChar_of_isBare hbare d ((afterWord?_suffix hmore).subset hd)
  rcases more with _ | ⟨c, more⟩
  · exact absurd rfl (ne_nil_of_afterWord? hkey hword hmore)
  · rcases hc : opensComment (c :: more) with _ | _
    · refine ⟨_, blank_words (List.cons_ne_nil c more) hwords hc hnext.stops, fun hhead => ?_⟩
      exact ne_of_isWordChar (hwords c List.mem_cons_self) (by decide) (Option.some.inj hhead)
    · -- the keyword ends before the comment, and no list follows the comment
      obtain ⟨scope, rfl⟩ : ∃ scope : Scope, word = scope.word := by
        rcases List.mem_cons.mp hword with rfl | hword
        · exact ⟨.particle, rfl⟩
        · exact ⟨.decay, List.mem_singleton.mp hword⟩
      have hslash : c = '/' := by
        unfold opensComment at hc
        split at hc
        · next heq => exact (List.cons.inj heq).1
        · next heq => exact (List.cons.inj heq).1
        · cases hc
      subst hslash
      have hmiss := hdefault scope _ (keyword?_of_afterWord (afterWord?_of_append hmore next)
        (by rintro _ ⟨⟩; decide))
      rcases blank_stops (('/' :: more) ++ next) with ⟨_, _, hfault⟩ | ⟨r, hread, -⟩
      · rw [hfault] at hmiss
        obtain ⟨_, _, hmiss⟩ := hmiss
        cases hmiss
      · refine ⟨r, hread, fun hhead => ?_⟩
        obtain ⟨r, rfl⟩ := List.head?_eq_some_iff.mp hhead
        rw [hread] at hmiss
        exact not_misses_paramList r hmiss

/-- The first quote splits a text in one way. -/
theorem eq_of_first_quote {p q : List Char} (h : p ++ '\x22' :: s = q ++ '\x22' :: t) (hp : '\x22' ∉ p)
    (hq : '\x22' ∉ q) : s = t := by
  have hdrop : ∀ {p s : List Char}, '\x22' ∉ p →
      (p ++ '\x22' :: s).dropWhile (· != '\x22') = '\x22' :: s := by
    intro p s hp
    rw [List.dropWhile_append_of_pos fun c hc => bne_iff_ne.mpr (ne_of_mem_of_not_mem hc hp)]
    rfl
  have htail := congrArg (List.dropWhile (· != '\x22')) h
  rw [hdrop hp, hdrop hq] at htail
  exact (List.cons.inj htail).2

/-- Where a text has but one pair of quotes, what stands behind a pair is what stands behind that one. -/
theorem eq_of_quotes {p q a b : List Char}
    (h : p ++ '\x22' :: (a ++ '\x22' :: s) = q ++ '\x22' :: (b ++ '\x22' :: t)) (ha : '\x22' ∉ a)
    (hq : '\x22' ∉ q) (hb : '\x22' ∉ b) (ht : '\x22' ∉ t) : s = t := by
  have hcount := congrArg (List.count '\x22') h
  simp only [List.count_append, List.count_cons_self, List.count_eq_zero_of_not_mem ha,
    List.count_eq_zero_of_not_mem hq, List.count_eq_zero_of_not_mem hb,
    List.count_eq_zero_of_not_mem ht] at hcount
  have hp : '\x22' ∉ p := List.count_eq_zero.mp (by omega)
  exact eq_of_first_quote (eq_of_first_quote h hp hq) ha hb

/-! ### Texts that were seen -/

theorem Outcome.optional_eq_read {o : Outcome α} {a : α} {r : List Char}
    (h : o.optional s = .read (some a) r) : o = .read a r := by
  cases o <;> cases h
  rfl

/-- A text that is read as a value without quotes opens no comment. -/
theorem opensComment_of_entry (hquote : '\x22' ∉ s) (h : entry inner s = .read (k, .text text) t) :
    opensComment text.toList = false := by
  obtain ⟨_, s₁, hs₁, h⟩ := Outcome.bind_eq_read.mp h
  obtain ⟨name, s₂, hs₂, h⟩ := Outcome.bind_eq_read.mp h
  obtain ⟨v?, s₃, hs₃, h⟩ := Outcome.bind_eq_read.mp h
  obtain ⟨_, s₄, -, h⟩ := Outcome.bind_eq_read.mp h
  obtain ⟨_, s₅, -, h⟩ := Outcome.bind_eq_read.mp h
  rcases v? with _ | v
  · cases h
  obtain rfl : v = .text text := by
    cases h
    rfl
  obtain ⟨_, r, hassigns, hvalue⟩ := Outcome.bind_eq_read.mp (Outcome.optional_eq_read hs₃)
  have hr : '\x22' ∉ r := fun hmem => hquote <| ((blank_within s).suffix hs₁).subset <|
    ((identifier_within s₁).suffix hs₂).subset <| ((assigns_within s₂).suffix hassigns).subset hmem
  have hopen : opensComment r = false := by
    obtain ⟨_, _, _, hassigns⟩ := Outcome.bind_eq_read.mp hassigns
    obtain ⟨_, q, _, hblank⟩ := Outcome.bind_eq_read.mp hassigns
    exact opensComment_of_blank hblank
  unfold value at hvalue
  split at hvalue
  · obtain ⟨_, _, _, hrecord⟩ := Outcome.bind_eq_read.mp hvalue
    cases hrecord
  · split at hvalue
    · next hid =>
      cases hvalue
      exact opensComment_of_identifier hopen (fun hhead => hr (List.mem_of_mem_head? hhead)) hid
    · cases hvalue
    · cases hvalue
    · cases hvalue

/-- Nor does one that is read anywhere in a list without quotes. -/
theorem opensComment_of_paramList {room : Nat} (hquote : '\x22' ∉ s)
    (h : paramList room ('[' :: s) = .read ps t) (hmem : (k, .text text) ∈ ps.entries) :
    opensComment text.toList = false := by
  rcases room with _ | room
  · cases h
  obtain ⟨es, _, hes, h⟩ := Outcome.bind_eq_read.mp h
  obtain ⟨_, _, _, h⟩ := Outcome.bind_eq_read.mp h
  obtain ⟨_, _, _, h⟩ := Outcome.bind_eq_read.mp h
  cases h
  have hmem := ParamList.mem_ofEntries hmem
  have hitem : ∀ s, '\x22' ∉ s → ∀ e rest, entry (paramList room) s = .read e rest →
      (∀ text, e.2 = .text text → opensComment text.toList = false) ∧ '\x22' ∉ rest := by
    rintro s hs ⟨k, x⟩ rest hread
    refine ⟨?_, fun hmem => hs (((entry_within (paramList_within room) s).suffix hread).subset hmem)⟩
    rintro text rfl
    exact opensComment_of_entry hs hread
  have hnil : ∀ e ∈ ([] : List (String × Value)),
      ∀ text, e.2 = .text text → opensComment text.toList = false := nofun
  exact manyFrom_yields hitem s hnil hquote es _ hes _ hmem text rfl

end Grammar

namespace Document

open Grammar

variable {source name value w v : String} {ss : List Statement} {located : List (Located Statement)}

/-- A document reads as some statements. -/
def States (source : String) (ss : List Statement) : Prop :=
  ∃ located, read source = .ok located ∧ located.map Located.value = ss

theorem statementsFrom_eq_ok {source bound s : List Char} {taken : List (Located Statement)}
    {here : Position} (h : statementsFrom source bound taken here s = .ok located) :
    ∃ first t more, statement s = .read first t ∧ located = taken.reverse ++ ⟨here, first⟩ :: more := by
  induction bound generalizing taken here s with
  | nil => cases h
  | cons c bound ih =>
    rw [statementsFrom] at h
    obtain ⟨⟨first, t⟩, hfirst, h⟩ := exists_of_bind_eq_ok h
    have hdone : (⟨here, first⟩ :: taken).reverse = taken.reverse ++ [⟨here, first⟩] := List.reverse_cons
    obtain ⟨⟨⟨⟩, s₂⟩, -, h⟩ := exists_of_bind_eq_ok h
    dsimp only at h
    refine ⟨first, t, ?_⟩
    suffices ∃ more, located = taken.reverse ++ ⟨here, first⟩ :: more from
      this.imp fun _ hmore => ⟨settle_eq_ok hfirst, hmore⟩
    split at h
    · cases h
      exact ⟨[], hdone⟩
    · obtain ⟨⟨⟨⟩, s₃⟩, -, h⟩ := exists_of_bind_eq_ok h
      obtain ⟨⟨⟨⟩, s₄⟩, -, h⟩ := exists_of_bind_eq_ok h
      dsimp only at h
      split at h
      · cases h
        exact ⟨[], hdone⟩
      · obtain ⟨_, _, more, -, rfl⟩ := ih h
        exact ⟨_, by rw [hdone, List.append_assoc]; rfl⟩

/-- The first statement stands behind the first blanks. -/
theorem States.exists_statement {st : Statement} (h : States source [st]) :
    ∃ s t, blank source.toList = .read () s ∧ statement s = .read st t := by
  obtain ⟨located, hread, hvalues⟩ := h
  obtain ⟨⟨⟨⟩, s⟩, hblank, hread⟩ := exists_of_bind_eq_ok hread
  obtain ⟨first, t, more, hfirst, rfl⟩ := statementsFrom_eq_ok hread
  obtain ⟨rfl, -⟩ := List.cons.inj hvalues
  exact ⟨s, t, settle_eq_ok hblank, hfirst⟩

/-- A name that is seen before its list, or before the end, is read as a particle. -/
theorem states_node {next : String} {ps : ParamList} {rest : List Char} (hw : written? name = some w)
    (hs : ShownBefore name next.toList) (hnext : Ends next.toList)
    (h : namedFrom name next.toList = .read (.node name ps) rest) (hrest : rest = [] ∨ rest = [';']) :
    States (w ++ next) [.node name ps] := by
  have hlist : (w ++ next).toList = w.toList ++ next.toList := String.toList_append
  obtain ⟨hblank, hstatement⟩ := statement_shown hw hs hnext
  rw [h] at hstatement
  obtain ⟨located, hread, hvalue⟩ := read_single (hlist ▸ hblank) (hlist ▸ hstatement) hrest
  exact ⟨[located], hread, congrArg ([·]) hvalue⟩

/-- A bare name that is read as a particle was seen, unless it was read in quotes, and these took the
place of a value. -/
theorem States.shownBefore {next : String} {ps : ParamList} (h : States (w ++ next) [.node name ps])
    (hw : written? name = some w) (hnext : Ends next.toList)
    (hquoted : isBare name = true → ∀ r,
      '\x22' :: (name.toList ++ '\x22' :: r) <:+ name.toList ++ next.toList →
        ∀ t, namedFrom name r ≠ .read (.node name ps) t) : ShownBefore name next.toList := by
  intro hbare hkey
  obtain rfl : name = w := Option.some.inj ((written?_of_isBare hbare hkey).symm.trans hw)
  obtain ⟨s, t, hblank, hstatement⟩ := h.exists_statement
  rw [String.toList_append] at hblank
  refine shownBefore_of_node hbare hkey hnext hblank hstatement (fun hhead => ?_) hbare hkey
  obtain ⟨r, hid, hnode⟩ := named_eq_node (statement_eq_node hstatement).1
  obtain ⟨s, rfl⟩ := List.head?_eq_some_iff.mp hhead
  obtain ⟨hsplit, -⟩ := quotedId_split (l := '\x22' :: s) hid
  exact hquoted hbare r (hsplit ▸ (blank_within _).suffix hblank) t hnode

/-- No name that stands in the place of the value has the list of the value behind it. -/
theorem namedFrom_ne_oneEntry (hbare : isBare name = true) (hv : written? value = some v) {r : List Char}
    (h : '\x22' :: (name.toList ++ '\x22' :: r) <:+ name.toList ++ (oneEntry v).toList) (t : List Char) :
    namedFrom name r ≠ .read (.node name (.ofEntries [("k", .text value)])) t := by
  have hname := not_mem_of_isBare hbare
  rw [oneEntry_toList] at h
  rcases written?_cases hv with ⟨rfl, hbare', -⟩ | ⟨hv, hall⟩
  · have hmem := h.subset List.mem_cons_self
    simp [hname, not_mem_of_isBare hbare'] at hmem
  · obtain ⟨p, hp⟩ := h
    have hpair : p ++ '\x22' :: (name.toList ++ '\x22' :: r) =
        (name.toList ++ ['[', 'k', '=']) ++ '\x22' :: (value.toList ++ '\x22' :: [']', ';']) := by
      rw [hp, hv]
      simp only [List.append_assoc, List.cons_append, List.nil_append]
    obtain rfl := eq_of_quotes hpair hname (by simp [hname]) (not_mem_of_isQuotable hall) (by decide)
    intro hread
    cases (namedFrom_eq_node hread).2

/-- A name reads back where its spelling is the whole document exactly if it is seen there, and a name with
a list reads back exactly if it is seen before the list, and the text in the list is seen too. All legible
names and texts are. -/
theorem states_written_iff (hw : written? name = some w) (hv : written? value = some v) :
    (States w [.node name ∅] ↔ ShownBefore name []) ∧
    (States (w ++ oneEntry v) [.node name (.ofEntries [("k", .text value)])] ↔
      ShownBefore name (oneEntry v).toList ∧ Shown value) ∧
    (Legible name → ShownBefore name [] ∧ ShownBefore name (oneEntry v).toList) ∧
    (Legible value → Shown value) := by
  have hends : Ends "".toList := nofun
  refine ⟨?_, ⟨fun h => ?_, fun ⟨hname, hvalue⟩ => ?_⟩, fun hname => ?_, Legible.shown⟩
  · rw [← String.append_empty (s := w)]
    refine ⟨fun h => h.shownBefore hw hends fun hbare r hr => ?_,
      fun h => states_node hw h hends rfl (.inl rfl)⟩
    rw [show "".toList = [] from rfl, List.append_nil] at hr
    exact absurd (hr.subset List.mem_cons_self) (not_mem_of_isBare hbare)
  · have hname : ShownBefore name (oneEntry v).toList :=
      h.shownBefore hw (ends_oneEntry v) fun hbare _ => namedFrom_ne_oneEntry hbare hv
    refine ⟨hname, fun hbare hkey => ?_⟩
    obtain rfl : value = v := Option.some.inj ((written?_of_isBare hbare hkey).symm.trans hv)
    obtain ⟨s, t, hblank, hstatement⟩ := h.exists_statement
    obtain ⟨hblank', hstatement'⟩ := statement_shown hw hname (ends_oneEntry value)
    rw [String.toList_append] at hblank
    cases hblank'.symm.trans hblank
    have hparams := (namedFrom_eq_node (hstatement'.symm.trans hstatement)).2
    rw [oneEntry_toList] at hparams
    have hquote : '\x22' ∉ 'k' :: '=' :: (value.toList ++ [']', ';']) := by
      simp [not_mem_of_isBare hbare]
    exact opensComment_of_paramList hquote (paramList_of_someParams hparams) List.mem_cons_self
  · exact states_node hw hname (ends_oneEntry v) (namedFrom_oneEntry hv hvalue name) (.inr rfl)
  · exact ⟨hname.shownBefore hends.stops, hname.shownBefore (ends_oneEntry v).stops⟩

/-- Names and texts that open a comment are spelled without quotes, and do not read back. -/
theorem not_states_written :
    (written? "//a" = some "//a" ∧ ¬ States "//a" [.node "//a" ∅]) ∧
    written? "A" = some "A" ∧ written? "//x" = some "//x" ∧
      ¬ States ("A" ++ oneEntry "//x") [.node "A" (.ofEntries [("k", .text "//x")])] := by
  have hname : ∃ e, read "//a" = .error e := ⟨_, rfl⟩
  have hvalue : ∃ e, read ("A" ++ oneEntry "//x") = .error e := ⟨_, rfl⟩
  refine ⟨⟨rfl, fun ⟨_, h, _⟩ => ?_⟩, rfl, rfl, fun ⟨_, h, _⟩ => ?_⟩
  · obtain ⟨e, he⟩ := hname
    cases he.symm.trans h
  · obtain ⟨e, he⟩ := hvalue
    cases he.symm.trans h

/-- Behind a keyword a comment may open, if it leaves no list. -/
theorem states_written_iff_behindKeyword :
    written? "particle//x" = some "particle//x" ∧ written? "*/ b" = some "\x22*/ b\x22" ∧
      ¬ Legible "particle//x" ∧ States "particle//x" [.node "particle//x" ∅] ∧
      (States ("particle//x" ++ oneEntry "\x22*/ b\x22")
          [.node "particle//x" (.ofEntries [("k", .text "*/ b")])] ↔
        ShownBefore "particle//x" (oneEntry "\x22*/ b\x22").toList ∧ Shown "*/ b") := by
  have hw : written? "particle//x" = some "particle//x" := rfl
  have hv : written? "*/ b" = some "\x22*/ b\x22" := rfl
  have hshown : ShownBefore "particle//x" [] := fun _ _ => ⟨rfl, fun word hword more hmore => by
    rcases List.mem_cons.mp hword with rfl | hword
    · cases (rfl : _ = some ['/', '/', 'x']).symm.trans hmore
      exact ⟨[], rfl, nofun⟩
    · cases List.mem_singleton.mp hword
      cases (rfl : _ = none).symm.trans hmore⟩
  have h := states_written_iff hw hv
  exact ⟨hw, hv, by decide, h.1.mpr hshown, h.2.1⟩

end Document

end DecayForest
