import DecayForest.Proofs.Grammar.Identifiers
import DecayForest.Proofs.Grammar.Quoting
import DecayForest.Proofs.Grammar.Sentences
/-!
# Lists that are nested too deep

A reader with room for so many lists inside one another faults where one more opens, right behind its
bracket. `Overruns` tells the texts in which that happens: list stands in list, and in each of them some
entries, a name and `=` come before the next. The fault is found in these texts and in no others, be it by
the rule for lists (`paramList_eq_fault_iff`) or by the one for statements (`statement_eq_fault_iff`). A
list in a statement and one that is the value of a parameter of the group have the same room.
-/

namespace DecayForest.Grammar

variable {α β : Type} {o : Outcome α} {next : α → List Char → Outcome β} {item : List Char → Outcome α}
  {inner : List Char → Outcome ParamList} {e : Expected} {s r t place : List Char} {room : Nat} {c : Char}

/-! ### Faults of the rules -/

namespace Outcome

/-- A fault behind something that is read without one. -/
theorem bind_eq_fault_iff (h : o ≠ .fault e place) : o.bind next = .fault e place ↔
    ∃ a r, o = .read a r ∧ next a r = .fault e place := by
  cases o <;> simp_all [Outcome.bind]

/-- A fault before something that is read without one. -/
theorem bind_eq_fault_iff_left (h : ∀ a r, next a r ≠ .fault e place) :
    o.bind next = .fault e place ↔ o = .fault e place := by
  cases o <;> simp_all [Outcome.bind]

@[simp] theorem map_eq_fault_iff {f : α → β} : o.map f = .fault e place ↔ o = .fault e place := by
  cases o <;> simp [Outcome.map, Outcome.bind]

@[simp] theorem optional_eq_fault_iff : o.optional s = .fault e place ↔ o = .fault e place := by
  cases o <;> simp [Outcome.optional]

end Outcome

/-- A comment without an end is the only fault of what is blank. -/
theorem blank_ne_fault (he : e ≠ .endOfComment) : blank s ≠ .fault e place := by
  unfold blank
  fun_induction blankFrom .outside s with
  | case1 s ih | case2 s ih | case3 s _ _ ih | case4 c s _ _ _ _ ih | case7 c s _ ih | case8 c s _ ih
  | case10 _ s ih | case11 body c s _ ih => exact ih
  | case5 | case6 | case9 => simp
  | case12 body =>
    intro h
    cases h
    exact he rfl

@[simp] theorem identifier_ne_fault : identifier s ≠ .fault e place := by
  unfold identifier
  split
  · unfold quotedId
    split
    · split <;> simp
    · simp
  · unfold bareId
    split
    · simp
    · dsimp only
      split <;> simp

@[simp] theorem character_ne_fault : character c s ≠ .fault e place := by
  unfold character
  split
  · simp
  · split <;> simp

theorem required_ne_fault (he : e ≠ .character c) : required c s ≠ .fault e place := by
  unfold required
  split
  · simp [he.symm]
  · split <;> simp [he.symm]

theorem required_eq_read_iff : required c s = .read () r ↔ s = c :: r := by
  unfold required
  split
  · simp
  · split <;> simp_all

section

variable {next : Unit → List Char → Outcome β}

theorem Outcome.unit_bind_eq_fault_iff {o : Outcome Unit} (h : o ≠ .fault e place) :
    o.bind next = .fault e place ↔ ∃ r, o = .read () r ∧ next () r = .fault e place := by
  rw [bind_eq_fault_iff h]
  constructor
  · rintro ⟨⟨⟩, r, hread, hnext⟩
    exact ⟨r, hread, hnext⟩
  · rintro ⟨r, hread, hnext⟩
    exact ⟨(), r, hread, hnext⟩

/-- Too deep a list behind what is blank. -/
@[simp] theorem blank_bind_eq_fault_iff : (blank s).bind next = .fault .shallowerList t ↔
    ∃ r, blank s = .read () r ∧ next () r = .fault .shallowerList t :=
  Outcome.unit_bind_eq_fault_iff (blank_ne_fault (by decide))

/-- Too deep a list behind a sign. -/
@[simp] theorem required_bind_eq_fault_iff : (required c s).bind next = .fault .shallowerList t ↔
    ∃ r, s = c :: r ∧ next () r = .fault .shallowerList t := by
  rw [Outcome.unit_bind_eq_fault_iff (required_ne_fault (by simp))]
  simp only [required_eq_read_iff]

@[simp] theorem assigns_bind_eq_fault_iff : (assigns s).bind next = .fault .shallowerList t ↔
    ∃ r, assigns s = .read () r ∧ next () r = .fault .shallowerList t := by
  apply Outcome.unit_bind_eq_fault_iff
  rw [assigns, Ne, blank_bind_eq_fault_iff]
  rintro ⟨r, -, h⟩
  rw [Outcome.unit_bind_eq_fault_iff character_ne_fault] at h
  obtain ⟨_, -, h⟩ := h
  exact blank_ne_fault (by decide) h

end

/-! ### Faults of items -/

/-- Some items are read one after the other, from one text up to another. -/
inductive Taken (item : List Char → Outcome α) : List α → List Char → List Char → Prop
  | none (s : List Char) : Taken item [] s s
  | next {a : α} {as : List α} {s s' t : List Char} :
    item s = .read a s' → Taken item as s' t → Taken item (a :: as) s t

theorem exists_taken {bound : List Char} {before : List α}
    (h : manyFrom item bound before s = .fault e place) :
    ∃ as r, Taken item as s r ∧ item r = .fault e place := by
  induction bound generalizing before s with
  | nil => cases h
  | cons c bound ih =>
    rw [manyFrom] at h
    split at h
    · next a s' hread =>
      obtain ⟨as, r, has, hr⟩ := ih h
      exact ⟨a :: as, r, .next hread has, hr⟩
    · cases h
    · next hfault =>
      cases h
      exact ⟨[], s, .none s, hfault⟩

/-- A bound on what a text holds has something left as long as the text has. -/
theorem exists_cons_of_length_le {bound : List Char} (hs : s ≠ []) (hbound : s.length ≤ bound.length) :
    ∃ c more, bound = c :: more := by
  apply List.exists_cons_of_ne_nil
  rintro rfl
  exact hs (List.length_eq_zero_iff.mp (Nat.le_zero.mp hbound))

theorem Taken.manyFrom_eq {as : List α} (h : Taken item as s r) (hr : item r = .fault e place)
    (hne : r ≠ []) (hshort : ∀ s a r, item s = .read a r → r.length < s.length) {bound : List Char}
    (hbound : s.length ≤ bound.length) (before : List α) :
    manyFrom item bound before s = .fault e place := by
  induction h generalizing bound before with
  | none s =>
    obtain ⟨c, bound, rfl⟩ := exists_cons_of_length_le hne hbound
    rw [manyFrom, hr]
  | next hread _ ih =>
    have hlt := hshort _ _ _ hread
    obtain ⟨c, bound, rfl⟩ := exists_cons_of_length_le (List.ne_nil_of_length_pos (by omega)) hbound
    rw [manyFrom, hread]
    apply ih hr hne
    rw [List.length_cons] at hbound
    omega

/-- Items fault where one of them does. -/
theorem many_eq_fault_iff (hshort : ∀ s a r, item s = .read a r → r.length < s.length)
    (hnil : item [] ≠ .fault e place) :
    many item s = .fault e place ↔ ∃ as r, Taken item as s r ∧ item r = .fault e place := by
  constructor
  · exact exists_taken
  · rintro ⟨as, r, has, hr⟩
    refine has.manyFrom_eq hr ?_ hshort (Nat.le_refl _) []
    rintro rfl
    exact hnil hr

/-! ### Lists -/

/-- A name and its `=` are read, with what is blank about them. -/
def Assigned (s r : List Char) : Prop :=
  ∃ s₁ key s₂, blank s = .read () s₁ ∧ identifier s₁ = .read key s₂ ∧ assigns s₂ = .read () r

/-- A text opens with `room` lists one in the other, and then with one more, behind the bracket of which
`t` stands. In each of the lists, some entries are read, and then a name and the `=` before the next. -/
inductive Overruns : Nat → List Char → List Char → Prop
  | tooMany (t : List Char) : Overruns 0 ('[' :: t) t
  | inside {room : Nat} {es : List (String × Value)} {s r r' t : List Char} :
    Taken (entry (paramList room)) es s r → Assigned r r' → Overruns room r' t →
    Overruns (room + 1) ('[' :: s) t

theorem Overruns.head (h : Overruns room s t) : ∃ r, s = '[' :: r := by
  cases h with
  | tooMany => exact ⟨_, rfl⟩
  | inside => exact ⟨_, rfl⟩

theorem value_eq_fault_iff : value inner s = .fault .shallowerList t ↔
    (∃ r, s = '[' :: r) ∧ inner s = .fault .shallowerList t := by
  unfold value
  split
  · simp
  · next hne =>
    have hno : ¬ ∃ r, s = '[' :: r := by simpa using hne
    split <;> simp_all

/-- An entry faults where its value does. -/
theorem entry_eq_fault_iff : entry inner s = .fault .shallowerList t ↔
    ∃ r, Assigned s r ∧ value inner r = .fault .shallowerList t := by
  have htail : ∀ (key : String) (v : Option Value) s, ((blank s).bind fun _ s =>
      ((character ',' s).optional s).map fun _ => (key, v.getD .present)) ≠ .fault .shallowerList t := by
    intro key v s
    simp
  simp only [entry, blank_bind_eq_fault_iff, Outcome.bind_eq_fault_iff identifier_ne_fault,
    Outcome.bind_eq_fault_iff_left (htail _), Outcome.optional_eq_fault_iff, assigns_bind_eq_fault_iff,
    Assigned]
  grind

theorem paramList_succ_eq_fault_iff : paramList (room + 1) s = .fault .shallowerList t ↔
    ∃ r, s = '[' :: r ∧ many (entry (paramList room)) r = .fault .shallowerList t := by
  unfold paramList
  split
  · contradiction
  · next heq =>
    cases heq
    have htail : ∀ (es : List (String × Value)) s, ((blank s).bind fun _ s => (required ']' s).map fun _ =>
        ParamList.ofEntries es) ≠ .fault .shallowerList t := by
      intro es s
      simp [required_ne_fault]
    rw [Outcome.bind_eq_fault_iff_left htail]
    simp
  · next hne => simp_all

/-- The reader of lists faults where lists are nested too deep. -/
theorem paramList_eq_fault_iff :
    paramList room s = .fault .shallowerList t ↔ Overruns room s t := by
  induction room generalizing s t with
  | zero =>
    constructor
    · intro h
      unfold paramList at h
      split at h
      · cases h
        exact .tooMany t
      · contradiction
      · cases h
    · rintro ⟨⟩
      rfl
  | succ room ih =>
    have hnil : entry (paramList room) [] ≠ .fault .shallowerList t := nofun
    rw [paramList_succ_eq_fault_iff]
    simp only [many_eq_fault_iff (fun _ _ _ => entry_shortens) hnil, entry_eq_fault_iff,
      value_eq_fault_iff, ih]
    constructor
    · rintro ⟨s, rfl, es, r, hes, r', hassigned, -, hover⟩
      exact .inside hes hassigned hover
    · intro h
      cases h with
      | inside hes hassigned hover => exact ⟨_, rfl, _, _, hes, _, hassigned, hover.head, hover⟩

/-! ### Statements -/

/-- A text is no default: no keyword opens it, or no list stands behind the keyword. -/
def NoDefault (s : List Char) : Prop :=
  ∀ scope r, keyword? s = some (scope, r) → ∃ r', blank r = .read () r' ∧ r'.head? ≠ some '['

/-- A statement is read up to where its list, or the list of a parameter of the group, has to open. -/
inductive Reaches : List Char → List Char → Prop
  | defaults {scope : Scope} {s r t : List Char} : keyword? s = some (scope, r) → blank r = .read () t →
    Reaches s t
  | node {name : String} {s r t : List Char} : NoDefault s → identifier s = .read name r →
    blank r = .read () t → Reaches s t
  | edge {name : String} {names : List String} {s r r₁ r₂ r₃ r₄ t : List Char} : NoDefault s →
    identifier s = .read name r → blank r = .read () ('-' :: '>' :: r₁) →
    blank r₁ = .read () ('\x7b' :: r₂) → blank r₂ = .read () r₃ →
    many target r₃ = .read names ('\x7d' :: r₄) → blank r₄ = .read () t → Reaches s t
  | param {name : String} {s r r₁ t : List Char} : NoDefault s → identifier s = .read name r →
    blank r = .read () ('=' :: r₁) → blank r₁ = .read () t → Reaches s t

variable {name : String}

theorem someParams_eq_fault_iff : someParams s = .fault .shallowerList t ↔
    ∃ r, blank s = .read () r ∧ Overruns maxListDepth r t := by
  simp [someParams, paramList_eq_fault_iff]

theorem many_target_ne_fault : many target s ≠ .fault .shallowerList t := by
  intro h
  obtain ⟨names, r, -, hr⟩ := exists_taken h
  rw [target, Outcome.bind_eq_fault_iff identifier_ne_fault] at hr
  obtain ⟨name, r', -, hr⟩ := hr
  rw [Outcome.map_eq_fault_iff] at hr
  exact blank_ne_fault (by decide) hr

theorem edgeFrom_eq_fault_iff : edgeFrom name s = .fault .shallowerList t ↔
    ∃ r₂ r₃ names r₄ r, blank s = .read () ('\x7b' :: r₂) ∧ blank r₂ = .read () r₃ ∧
      many target r₃ = .read names ('\x7d' :: r₄) ∧ blank r₄ = .read () r ∧
      Overruns maxListDepth r t := by
  simp only [edgeFrom, blank_bind_eq_fault_iff, required_bind_eq_fault_iff,
    Outcome.bind_eq_fault_iff many_target_ne_fault, Outcome.map_eq_fault_iff, someParams_eq_fault_iff]
  grind

theorem paramFrom_eq_fault_iff : paramFrom name s = .fault .shallowerList t ↔
    ∃ r, blank s = .read () r ∧ Overruns maxListDepth r t := by
  simp only [paramFrom, blank_bind_eq_fault_iff, Outcome.map_eq_fault_iff, value_eq_fault_iff,
    paramList_eq_fault_iff]
  constructor
  · rintro ⟨r, hr, -, hover⟩
    exact ⟨r, hr, hover⟩
  · rintro ⟨r, hr, hover⟩
    exact ⟨r, hr, hover.head, hover⟩

theorem namedFrom_eq_fault_iff : namedFrom name s = .fault .shallowerList t ↔
    ∃ r, blank s = .read () r ∧
      ((∃ r₁, r = '=' :: r₁ ∧ paramFrom name r₁ = .fault .shallowerList t) ∨
      (∃ r₁, r = '-' :: '>' :: r₁ ∧ edgeFrom name r₁ = .fault .shallowerList t) ∨
      Overruns maxListDepth r t) := by
  rw [namedFrom, blank_bind_eq_fault_iff]
  apply exists_congr
  intro r
  apply and_congr_right
  intro hr
  split
  · constructor
    · intro h
      exact .inl ⟨_, rfl, h⟩
    · rintro (⟨_, ⟨⟩, h⟩ | ⟨_, ⟨⟩, -⟩ | hover)
      · exact h
      · obtain ⟨_, heq⟩ := hover.head
        cases heq
  · constructor
    · intro h
      exact .inr (.inl ⟨_, rfl, h⟩)
    · rintro (⟨_, ⟨⟩, -⟩ | ⟨_, ⟨⟩, h⟩ | hover)
      · exact h
      · obtain ⟨_, heq⟩ := hover.head
        cases heq
  · next hassign harrow =>
    rw [Outcome.map_eq_fault_iff, someParams_eq_fault_iff]
    constructor
    · rintro ⟨r', hr', hover⟩
      cases hr.symm.trans hr'
      exact .inr (.inr hover)
    · rintro (⟨r₁, rfl, -⟩ | ⟨r₁, rfl, -⟩ | hover)
      · exact absurd rfl (hassign r₁)
      · exact absurd rfl (harrow r₁)
      · exact ⟨r, hr, hover⟩

theorem named_eq_fault_iff : named s = .fault .shallowerList t ↔
    ∃ name r, identifier s = .read name r ∧ namedFrom name r = .fault .shallowerList t := by
  unfold named
  split <;> simp_all

/-- What is no default opens with a name, if it is a statement at all. -/
theorem NoDefault.statement_eq (h : NoDefault s) : statement s = named s := by
  unfold statement
  split
  · rfl
  · next scope rest hkey =>
    obtain ⟨r, hblank, hhead⟩ := h scope rest hkey
    obtain ⟨e, place, hmiss⟩ : (paramList maxListDepth r).Misses := by
      cases r with
      | nil => exact ⟨_, _, rfl⟩
      | cons c r => exact ⟨_, _, paramList_of_ne (fun hc => hhead (congrArg some hc)) r⟩
    simp only [hblank, Outcome.bind, hmiss]

theorem noDefault_of_misses (h : ∀ scope r, keyword? s = some (scope, r) →
    ((blank r).bind fun _ s => paramList maxListDepth s).Misses) : NoDefault s := by
  intro scope r hkey
  have hmiss := h scope r hkey
  rcases blank_stops r with ⟨_, _, hfault⟩ | ⟨r', hread, -⟩
  · rw [hfault] at hmiss
    exact absurd hmiss (not_misses_fault _ _)
  · refine ⟨r', hread, ?_⟩
    intro hhead
    obtain ⟨r'', rfl⟩ := List.head?_eq_some_iff.mp hhead
    rw [hread] at hmiss
    exact not_misses_paramList r'' hmiss

/-- The rule for statements faults where a list that the statement leads to is nested too deep. -/
theorem statement_eq_fault_iff : statement s = .fault .shallowerList t ↔
    ∃ r, Reaches s r ∧ Overruns maxListDepth r t := by
  have hnamed : NoDefault s → named s = .fault .shallowerList t →
      ∃ r, Reaches s r ∧ Overruns maxListDepth r t := by
    intro hno h
    obtain ⟨name, r, hname, h⟩ := named_eq_fault_iff.mp h
    obtain ⟨r', hr', h⟩ := namedFrom_eq_fault_iff.mp h
    rcases h with ⟨r₁, rfl, h⟩ | ⟨r₁, rfl, h⟩ | hover
    · obtain ⟨r₂, hr₂, hover⟩ := paramFrom_eq_fault_iff.mp h
      exact ⟨r₂, .param hno hname hr' hr₂, hover⟩
    · obtain ⟨r₂, r₃, names, r₄, r₅, hopen, hlead, hnames, hend, hover⟩ := edgeFrom_eq_fault_iff.mp h
      exact ⟨r₅, .edge hno hname hr' hopen hlead hnames hend, hover⟩
    · exact ⟨r', .node hno hname hr', hover⟩
  constructor
  · intro h
    unfold statement at h
    split at h
    · next hkey => exact hnamed (fun _ _ h => absurd (hkey.symm.trans h) nofun) h
    · next scope rest hkey =>
      split at h
      · cases h
      · next hfault =>
        cases h
        rw [blank_bind_eq_fault_iff] at hfault
        obtain ⟨r, hr, hover⟩ := hfault
        exact ⟨r, .defaults hkey hr, paramList_eq_fault_iff.mp hover⟩
      · next hmiss =>
        refine hnamed (noDefault_of_misses fun _ _ h => ?_) h
        cases hkey.symm.trans h
        exact ⟨_, _, hmiss⟩
  · rintro ⟨r, hreach, hover⟩
    cases hreach with
    | defaults hkey hr =>
      rw [statement, hkey]
      simp only [hr, Outcome.bind, paramList_eq_fault_iff.mpr hover]
    | node hno hname hr =>
      rw [hno.statement_eq, named_eq_fault_iff]
      exact ⟨_, _, hname, namedFrom_eq_fault_iff.mpr ⟨_, hr, .inr (.inr hover)⟩⟩
    | edge hno hname hr hopen hlead hnames hend =>
      rw [hno.statement_eq, named_eq_fault_iff]
      refine ⟨_, _, hname, namedFrom_eq_fault_iff.mpr ⟨_, hr, .inr (.inl ⟨_, rfl, ?_⟩)⟩⟩
      exact edgeFrom_eq_fault_iff.mpr ⟨_, _, _, _, _, hopen, hlead, hnames, hend, hover⟩
    | param hno hname hr hlead =>
      rw [hno.statement_eq, named_eq_fault_iff]
      refine ⟨_, _, hname, namedFrom_eq_fault_iff.mpr ⟨_, hr, .inl ⟨_, rfl, ?_⟩⟩⟩
      exact paramFrom_eq_fault_iff.mpr ⟨_, hlead, hover⟩

/-! ### Where statements end -/

theorem namedFrom_within (name : String) (s : List Char) : (namedFrom name s).Within s := by
  have hblank := blank_within s
  unfold namedFrom
  cases h : blank s with
  | read _ ahead =>
    rw [h] at hblank
    rw [Outcome.bind]
    split
    · exact (paramFrom_within _ _).trans ((List.suffix_cons _ _).trans hblank)
    · exact (edgeFrom_within _ _).trans
        ((List.suffix_cons _ _).trans ((List.suffix_cons _ _).trans hblank))
    · exact (someParams_within s).map _
  | miss | fault =>
    rw [h] at hblank
    exact hblank

theorem named_within (s : List Char) : (named s).Within s := by
  have hname := identifier_within s
  unfold named
  split
  · next heq =>
    rw [heq] at hname
    exact (namedFrom_within _ _).trans hname
  · next heq =>
    rw [heq] at hname
    exact hname
  · exact List.suffix_refl s
  · next heq =>
    rw [heq] at hname
    exact hname

theorem keyword?_suffix {scope : Scope} (h : keyword? s = some (scope, r)) : r <:+ s := by
  obtain ⟨word, -, hafter⟩ := exists_of_keyword? h
  exact afterWord?_suffix hafter

theorem statement_within (s : List Char) : (statement s).Within s := by
  unfold statement
  split
  · exact named_within s
  · next scope rest hkey =>
    have hlist : ((blank rest).bind fun _ s => paramList maxListDepth s).Within s :=
      ((blank_within rest).bind fun _ s => paramList_within maxListDepth s).trans (keyword?_suffix hkey)
    split
    · next heq =>
      rw [heq] at hlist
      exact hlist
    · next heq =>
      rw [heq] at hlist
      exact hlist
    · exact named_within s

theorem not_misses_someParams (s : List Char) : ¬ (someParams s).Misses := by
  refine not_misses_bind ?_ fun _ s => not_misses_read _ s
  rintro ⟨e, place, h⟩
  unfold Outcome.optional at h
  split at h <;> cases h

theorem not_misses_required (c : Char) (s : List Char) : ¬ (required c s).Misses := by
  rintro ⟨e, place, h⟩
  unfold required at h
  split at h
  · cases h
  · split at h <;> cases h

theorem not_misses_value (s : List Char) : ¬ (value (paramList maxListDepth) s).Misses := by
  unfold value
  split
  · exact not_misses_bind (not_misses_paramList _) fun _ s => not_misses_read _ s
  · split
    · exact not_misses_read _ _
    · exact not_misses_fault _ _
    · exact not_misses_fault _ _
    · exact not_misses_fault _ _

/-- A statement is not missed any more once its first name has been read. -/
theorem not_misses_namedFrom (name : String) (s : List Char) : ¬ (namedFrom name s).Misses := by
  refine not_misses_bind (not_misses_blank s) fun _ ahead => ?_
  split
  · refine not_misses_bind (not_misses_blank _) fun _ s => ?_
    exact not_misses_bind (not_misses_value s) fun _ s => not_misses_read _ s
  · refine not_misses_bind (not_misses_blank _) fun _ s => ?_
    refine not_misses_bind (not_misses_required _ s) fun _ s => ?_
    refine not_misses_bind (not_misses_blank s) fun _ s => ?_
    refine not_misses_bind (not_misses_manyFrom s [] s) fun _ s => ?_
    refine not_misses_bind (not_misses_required _ s) fun _ s => ?_
    exact not_misses_bind (not_misses_someParams s) fun _ s => not_misses_read _ s
  · exact not_misses_bind (not_misses_someParams s) fun _ s => not_misses_read _ s

theorem named_ne_miss : named s ≠ .miss .shallowerList t := by
  unfold named
  split
  · intro h
    exact not_misses_namedFrom _ _ ⟨_, _, h⟩
  · simp
  · simp
  · simp

theorem statement_ne_miss : statement s ≠ .miss .shallowerList t := by
  unfold statement
  split
  · exact named_ne_miss
  · split
    · simp
    · simp
    · exact named_ne_miss

/-- Some statements are read, with a semicolon behind each of them, and the next leads to lists that are
nested too deep: `t` stands behind the bracket that is one too many. -/
inductive StatementsOverrun : List Char → List Char → Prop
  | here {s r t : List Char} : Reaches s r → Overruns maxListDepth r t → StatementsOverrun s t
  | later {st : Statement} {s r r₁ r₂ t : List Char} : statement s = .read st r →
    blank r = .read () (';' :: r₁) → blank r₁ = .read () r₂ → StatementsOverrun r₂ t →
    StatementsOverrun s t

/-! ### Where a list stands in a text -/

theorem Taken.suffix {as : List α} (h : Taken item as s t) (hitem : ∀ s, (item s).Within s) :
    t <:+ s := by
  induction h with
  | none s => exact List.suffix_refl s
  | next hread _ ih => exact ih.trans ((hitem _).suffix hread)

theorem Assigned.suffix (h : Assigned s r) : r <:+ s := by
  obtain ⟨s₁, key, s₂, hblank, hkey, hassigns⟩ := h
  have hname := ((identifier_within s₁).suffix hkey).trans ((blank_within s).suffix hblank)
  exact ((assigns_within s₂).suffix hassigns).trans hname

theorem Overruns.suffix (h : Overruns room s t) : '[' :: t <:+ s := by
  induction h with
  | tooMany t => exact List.suffix_refl _
  | inside htaken hassigned _ ih =>
    have hentries := htaken.suffix (entry_within (paramList_within _))
    exact ((ih.trans hassigned.suffix).trans hentries).trans (List.suffix_cons '[' _)

theorem Reaches.suffix (h : Reaches s r) : r <:+ s := by
  have hblank : ∀ {s t}, blank s = .read () t → t <:+ s := fun h => (blank_within _).suffix h
  have hname : ∀ {name s t}, identifier s = .read name t → t <:+ s := fun h =>
    (identifier_within _).suffix h
  cases h with
  | defaults hkey hr => exact (hblank hr).trans (keyword?_suffix hkey)
  | node _ hid hr => exact (hblank hr).trans (hname hid)
  | edge _ hid hr hopen hlead hnames hend =>
    have harrow := (List.suffix_cons _ _).trans ((List.suffix_cons _ _).trans (hblank hr))
    have hbrace := (List.suffix_cons _ _).trans (hblank hopen)
    have htargets := (many_within (fun s => (identifier_within s).bind fun _ s =>
      (blank_within s).map _) _).suffix hnames
    have hclose := (List.suffix_cons _ _).trans (htargets.trans (hblank hlead))
    exact ((((hblank hend).trans hclose).trans hbrace).trans harrow).trans (hname hid)
  | param _ hid hr hlead =>
    exact ((hblank hlead).trans ((List.suffix_cons _ _).trans (hblank hr))).trans (hname hid)

theorem StatementsOverrun.suffix (h : StatementsOverrun s t) : '[' :: t <:+ s := by
  induction h with
  | here hreach hover => exact hover.suffix.trans hreach.suffix
  | later hread hblank hblank' _ ih =>
    have hsemicolon := (List.suffix_cons _ _).trans ((blank_within _).suffix hblank)
    have hrest := ((blank_within _).suffix hblank').trans hsemicolon
    exact (ih.trans hrest).trans ((statement_within _).suffix hread)

theorem StatementsOverrun.ne_nil (h : StatementsOverrun s t) : s ≠ [] := by
  rintro rfl
  exact List.cons_ne_nil _ _ (List.suffix_nil.mp h.suffix)

/-! ### Lists that open one after the other -/

/-- Lists that open one in the other, each behind the first name and the `=` of the one around it. -/
def opened (ws : List String) (rest : List Char) : List Char :=
  ws.foldr (fun w rest => '[' :: (w.toList ++ '=' :: rest)) rest

theorem opened_append (ws : List String) (s t : List Char) : opened ws (s ++ t) = opened ws s ++ t := by
  induction ws with
  | nil => rfl
  | cons w ws ih =>
    have hcons : ∀ rest, opened (w :: ws) rest = '[' :: (w.toList ++ '=' :: opened ws rest) := fun _ => rfl
    rw [hcons, hcons, ih]
    simp

/-- Whatever the names are and whatever follows, so many open lists leave no room for another. -/
theorem overruns_opened {ws : List String}
    (h : ∀ w ∈ ws, ∃ key, written? key = some w ∧ Shown key) (t : List Char) :
    Overruns ws.length (opened ws ('[' :: t)) t := by
  induction ws with
  | nil => exact .tooMany t
  | cons w ws ih =>
    obtain ⟨⟨key, hw, hshown⟩, hws⟩ := List.forall_mem_cons.mp h
    have hover := ih hws
    have hends : Ends ('=' :: opened ws ('[' :: t)) := ends_of_not (by decide) _
    have hassigns : assigns ('=' :: opened ws ('[' :: t)) = .read () (opened ws ('[' :: t)) := by
      obtain ⟨r, hr⟩ := hover.head
      rw [hr, assigns, blank_of_not (by decide)]
      exact blank_of_not (by decide) r
    exact .inside (.none _) ⟨_, key, _, blank_written hw hshown hends,
      identifier_written hw hends.stops, hassigns⟩ hover

end DecayForest.Grammar
