import DecayForest.Document
import DecayForest.Proofs.Grammar.Values
import DecayForest.Proofs.Lists
/-!
# What can be read

Whatever the rules of the grammar read off a text can be written again: names and texts hold no
quote and no line break (`Quotable`), lists are in order and nested no deeper than the reader follows
them, and a value is never a flag. That is what is known of the statements of a document
(`Document.read_worded`).
-/

namespace DecayForest

open Grammar

namespace Grammar

/-- A name or text can stand in quotes. -/
def Quotable (s : String) : Prop :=
  s.toList.all isQuotable = true

instance (s : String) : Decidable (Quotable s) := inferInstanceAs (Decidable (_ = _))

/-- Whatever is read has a property. -/
def Outcome.Yields {α : Type} (P : α → Prop) (o : Outcome α) : Prop :=
  ∀ a rest, o = .read a rest → P a

namespace Outcome

variable {α β : Type} {P : α → Prop} {Q : β → Prop} {o : Outcome α}

theorem yields_miss (expected : Expected) (place : List Char) :
    (Outcome.miss expected place : Outcome α).Yields P := nofun

theorem yields_fault (expected : Expected) (place : List Char) :
    (Outcome.fault expected place : Outcome α).Yields P := nofun

theorem Yields.bind {next : α → List Char → Outcome β} (h : o.Yields P)
    (hnext : ∀ a rest, P a → (next a rest).Yields Q) : (o.bind next).Yields Q := by
  cases o with
  | read a rest => exact hnext a rest (h a rest rfl)
  | miss => exact yields_miss _ _
  | fault => exact yields_fault _ _

/-- Whatever stands in front, the property is that of what follows. -/
theorem yields_bind {next : α → List Char → Outcome β} (o : Outcome α)
    (hnext : ∀ a rest, (next a rest).Yields Q) : (o.bind next).Yields Q :=
  Yields.bind (P := fun _ => True) (fun _ _ _ => trivial) fun a rest _ => hnext a rest

theorem Yields.map {f : α → β} (h : o.Yields P) (hf : ∀ a, P a → Q (f a)) : (o.map f).Yields Q :=
  h.bind fun a _ ha => by
    rintro _ _ ⟨⟩
    exact hf a ha

theorem yields_map {f : α → β} (o : Outcome α) (hf : ∀ a, Q (f a)) : (o.map f).Yields Q :=
  yields_bind o fun a _ => by
    rintro _ _ ⟨⟩
    exact hf a

theorem Yields.optional (h : o.Yields P) (s : List Char) :
    (o.optional s).Yields fun a? => ∀ a ∈ a?, P a := by
  cases o with
  | read a rest =>
    rintro _ _ ⟨⟩ _ ⟨⟩
    exact h a rest rfl
  | miss =>
    rintro _ _ ⟨⟩
    exact nofun
  | fault => exact yields_fault _ _

end Outcome

open Outcome

variable {α : Type} {P : α → Prop} {item : List Char → Outcome α}

/-- The items are read off texts with some property, if each leaves such a text. -/
theorem manyFrom_yields {T : List Char → Prop}
    (h : ∀ s, T s → ∀ a rest, item s = .read a rest → P a ∧ T rest) (bound : List Char)
    {taken : List α} (htaken : ∀ a ∈ taken, P a) {s : List Char} (hs : T s) :
    (manyFrom item bound taken s).Yields fun as => ∀ a ∈ as, P a := by
  have hreverse : ∀ a ∈ taken.reverse, P a := fun a ha => htaken a (List.mem_reverse.mp ha)
  induction bound generalizing taken s with
  | nil =>
    rintro _ _ ⟨⟩
    exact hreverse
  | cons c bound ih =>
    unfold manyFrom
    split
    · next a rest heq =>
      obtain ⟨ha, hrest⟩ := h s hs a rest heq
      have htaken' := List.forall_mem_cons.mpr ⟨ha, htaken⟩
      exact ih htaken' hrest fun b hb => htaken' b (List.mem_reverse.mp hb)
    · rintro _ _ ⟨⟩
      exact hreverse
    · exact yields_fault _ _

theorem many_yields (h : ∀ s, (item s).Yields P) (s : List Char) :
    (many item s).Yields fun as => ∀ a ∈ as, P a :=
  have hnil : ∀ a ∈ ([] : List α), P a := nofun
  manyFrom_yields (T := fun _ => True) (fun s _ a rest ha => ⟨h s a rest ha, trivial⟩) s hnil trivial

/-! ### Names -/

theorem isQuotable_of_isWordChar {c : Char} (h : isWordChar c = true) : isQuotable c = true := by
  simp [isQuotable, ne_of_isWordChar h (d := '\x22') (by decide),
    ne_of_isWordChar h (d := '\n') (by decide), ne_of_isWordChar h (d := '\r') (by decide)]

theorem isWordChar_of_mem_runFrom {taken l : List Char}
    (htaken : ∀ c ∈ taken, isWordChar c = true) :
    ∀ c ∈ (runFrom taken l).1, isWordChar c = true := by
  have hreverse : ∀ c ∈ taken.reverse, isWordChar c = true :=
    fun c hc => htaken c (List.mem_reverse.mp hc)
  fun_induction runFrom taken l with
  | case2 taken c l _ hc ih =>
    have htaken' : ∀ d ∈ c :: taken, isWordChar d = true := List.forall_mem_cons.mpr ⟨hc, htaken⟩
    exact ih htaken' fun d hd => htaken' d (List.mem_reverse.mp hd)
  | case1 | case3 | case4 => exact hreverse

theorem bareId_yields (s : List Char) : (bareId s).Yields Quotable := by
  unfold bareId
  split
  · rintro _ _ ⟨⟩
    decide
  · dsimp only
    split
    · exact yields_miss _ _
    · rintro _ _ ⟨⟩
      have hnil : ∀ c ∈ ([] : List Char), isWordChar c = true := nofun
      rw [Quotable, String.toList_ofList]
      exact List.all_eq_true.mpr fun c hc =>
        isQuotable_of_isWordChar (isWordChar_of_mem_runFrom hnil c hc)

theorem quotedId_yields (s : List Char) : (quotedId s).Yields Quotable := by
  unfold quotedId
  split
  · split
    · rintro _ _ ⟨⟩
      rw [Quotable, String.toList_ofList]
      exact List.all_takeWhile
    · exact yields_miss _ _
  · exact yields_miss _ _

theorem identifier_yields (s : List Char) : (identifier s).Yields Quotable := by
  unfold identifier
  split
  · exact quotedId_yields _
  · exact bareId_yields _

/-! ### Values and lists -/

/-- A value can be written again, and no more than so many lists stand inside one another in it. -/
def Sound (room : Nat) (v : Value) : Prop :=
  v.Worded Quotable ∧ v.depth ≤ room

variable {inner : List Char → Outcome ParamList} {room : Nat}

theorem value_yields (h : ∀ s, (inner s).Yields fun ps => Sound room (.record ps.entries)) (s : List Char) :
    (value inner s).Yields fun v => Sound room v ∧ v ≠ .flag true := by
  unfold value
  split
  · exact (h _).map fun ps hps => ⟨hps, by simp⟩
  · split
    · next name rest heq =>
      rintro _ _ ⟨⟩
      exact ⟨⟨identifier_yields s name rest heq, Nat.zero_le _⟩, by simp⟩
    · exact yields_fault _ _
    · exact yields_fault _ _
    · exact yields_fault _ _

theorem entry_yields (h : ∀ s, (inner s).Yields fun ps => Sound room (.record ps.entries)) (s : List Char) :
    (entry inner s).Yields fun e => Quotable e.1 ∧ Sound room e.2 := by
  refine yields_bind _ fun _ s => (identifier_yields s).bind fun name s hname => ?_
  have hvalue := (yields_bind (assigns s) fun _ s => value_yields h s).optional s
  refine hvalue.bind fun v? s hv => yields_bind _ fun _ s => ?_
  refine yields_map _ fun _ => ⟨hname, ?_⟩
  rcases v? with _ | v
  · exact ⟨rfl, Nat.zero_le _⟩
  · exact (hv v rfl).1

/-- Entries that can be written again make up a list that can. -/
theorem sound_ofEntries {es : List (String × Value)}
    (h : ∀ e ∈ es, Quotable e.1 ∧ Sound room e.2) :
    Sound (room + 1) (.record (ParamList.ofEntries es).entries) := by
  have hall : ∀ e ∈ (ParamList.ofEntries es).entries, Quotable e.1 ∧ Sound room e.2 := fun e he =>
    h e (ParamList.mem_ofEntries he)
  refine ⟨⟨(ParamList.ofEntries es).ascending, Value.wordedEntries_iff.mpr fun e he => ?_⟩, ?_⟩
  · exact ⟨(hall e he).1, (hall e he).2.1⟩
  · exact (Value.depthEntries_lt_iff (Nat.succ_pos room)).mpr fun e he =>
      Nat.lt_succ_of_le (hall e he).2.2

theorem paramList_yields (room : Nat) (s : List Char) :
    (paramList room s).Yields fun ps => Sound room (.record ps.entries) := by
  induction room generalizing s with
  | zero =>
    unfold paramList
    split
    · exact yields_fault _ _
    · contradiction
    · exact yields_miss _ _
  | succ room ih =>
    unfold paramList
    split
    · contradiction
    · next s heq =>
      cases heq
      refine (many_yields (entry_yields ih) _).bind fun es s hes => ?_
      refine yields_bind _ fun _ s => ?_
      exact yields_map _ fun _ => sound_ofEntries hes
    · exact yields_miss _ _

theorem worded_of_sound {ps : ParamList} (h : Sound maxListDepth (.record ps.entries)) :
    ps.Worded Quotable :=
  ⟨h.1.2, h.2⟩

theorem someParams_yields (s : List Char) : (someParams s).Yields (ParamList.Worded Quotable) := by
  have hlist := (yields_bind (blank s) fun _ s => paramList_yields maxListDepth s).optional s
  refine hlist.map fun ps? hps => ?_
  rcases ps? with _ | ps
  · exact ⟨trivial, by decide⟩
  · exact worded_of_sound (hps ps rfl)

end Grammar

/-! ### Statements -/

/-- A statement of which all names and texts are of one sort, lists are nested within bounds, and the
value of a parameter of the group is no flag. -/
def Statement.Worded (sort : String → Prop) : Statement → Prop
  | .node name params => sort name ∧ params.Worded sort
  | .edge source targets params => (sort source ∧ ∀ b ∈ targets, sort b) ∧ params.Worded sort
  | .defaults _ params => params.Worded sort
  | .param name v => sort name ∧ v.Worded sort ∧ v ≠ .flag true ∧ v.depth ≤ maxListDepth

namespace Grammar

open Outcome

variable {name : String}

theorem edgeFrom_yields (hname : Quotable name) (s : List Char) :
    (edgeFrom name s).Yields (Statement.Worded Quotable) := by
  refine yields_bind _ fun _ s => yields_bind _ fun _ s => yields_bind _ fun _ s => ?_
  have htarget : ∀ s, ((identifier s).bind fun name s => (blank s).map fun _ => name).Yields
      Quotable := fun s => (identifier_yields s).bind fun name s hname =>
    yields_map _ fun _ => hname
  refine (many_yields htarget s).bind fun targets s htargets => yields_bind _ fun _ s => ?_
  exact (someParams_yields s).map fun params hparams => ⟨⟨hname, htargets⟩, hparams⟩

theorem paramFrom_yields (hname : Quotable name) (s : List Char) :
    (paramFrom name s).Yields (Statement.Worded Quotable) := by
  refine yields_bind _ fun _ s => ?_
  exact (value_yields (paramList_yields maxListDepth) s).map fun v hv =>
    ⟨hname, hv.1.1, hv.2, hv.1.2⟩

theorem namedFrom_yields (hname : Quotable name) (s : List Char) :
    (namedFrom name s).Yields (Statement.Worded Quotable) := by
  refine yields_bind _ fun _ ahead => ?_
  split
  · exact paramFrom_yields hname _
  · exact edgeFrom_yields hname _
  · exact (someParams_yields _).map fun params hparams => ⟨hname, hparams⟩

theorem named_yields (s : List Char) : (named s).Yields (Statement.Worded Quotable) := by
  unfold named
  split
  · next name rest heq => exact namedFrom_yields (identifier_yields s name rest heq) rest
  · exact yields_miss _ _
  · exact yields_miss _ _
  · exact yields_fault _ _

theorem statement_yields (s : List Char) : (statement s).Yields (Statement.Worded Quotable) := by
  unfold statement
  split
  · exact named_yields s
  · next scope rest _ =>
    have hlist := yields_bind (blank rest) fun _ s => paramList_yields maxListDepth s
    split
    · next params rest' heq =>
      rintro _ _ ⟨⟩
      exact worded_of_sound (hlist params rest' heq)
    · exact yields_fault _ _
    · exact named_yields s

end Grammar

namespace Document

variable {source : List Char} {located : List (Located Statement)}

theorem settle_eq_ok {α : Type} {o : Outcome α} {r : α × List Char}
    (h : settle source o = .ok r) : o = .read r.1 r.2 := by
  cases o <;> cases h
  rfl

theorem statementsFrom_worded {bound : List Char} {taken : List (Located Statement)}
    {here : Position} {s : List Char} (htaken : ∀ st ∈ taken, st.value.Worded Quotable)
    (h : statementsFrom source bound taken here s = .ok located) :
    ∀ st ∈ located, st.value.Worded Quotable := by
  induction bound generalizing taken here s with
  | nil => cases h
  | cons c bound ih =>
    rw [statementsFrom] at h
    obtain ⟨⟨first, s₁⟩, hfirst, h⟩ := exists_of_bind_eq_ok h
    have htaken' : ∀ st ∈ ⟨here, first⟩ :: taken, st.value.Worded Quotable :=
      List.forall_mem_cons.mpr ⟨statement_yields s first s₁ (settle_eq_ok hfirst), htaken⟩
    have hdone : ∀ st ∈ (⟨here, first⟩ :: taken).reverse, st.value.Worded Quotable :=
      fun st hst => htaken' st (List.mem_reverse.mp hst)
    obtain ⟨⟨⟨⟩, s₂⟩, -, h⟩ := exists_of_bind_eq_ok h
    dsimp only at h
    split at h
    · cases h
      exact hdone
    · obtain ⟨⟨⟨⟩, s₃⟩, -, h⟩ := exists_of_bind_eq_ok h
      obtain ⟨⟨⟨⟩, s₄⟩, -, h⟩ := exists_of_bind_eq_ok h
      dsimp only at h
      split at h
      · cases h
        exact hdone
      · exact ih htaken' h

/-- Whatever is read can be written again. -/
theorem read_worded {text : String} (h : read text = .ok located) :
    ∀ st ∈ located, st.value.Worded Quotable := by
  obtain ⟨⟨⟨⟩, s⟩, -, h⟩ := exists_of_bind_eq_ok h
  have hnil : ∀ st ∈ ([] : List (Located Statement)), st.value.Worded Quotable := nofun
  exact statementsFrom_worded hnil h

end Document

end DecayForest
