import DecayForest.Proofs.Grammar.Nesting
/-!
# What documents are bounded by

The statements of a document that is read can be written again, and their lists are nested no deeper than
the reader follows them. Too deep a list is told with its place, whatever comes behind it
(`Document.read_bounded`).
-/

namespace DecayForest

open Grammar

namespace Position

variable {a b : List Char}

theorem foldl_utf8Size (a : List Char) (n : Nat) :
    a.foldl (fun n c => n + c.utf8Size) n = n + bytes a := by
  induction a generalizing n with
  | nil => rfl
  | cons c a ih =>
    rw [bytes, List.foldl_cons, List.foldl_cons, ih, ih (0 + c.utf8Size)]
    omega

theorem bytes_append (a b : List Char) : bytes (a ++ b) = bytes a + bytes b := by
  rw [bytes, List.foldl_append, foldl_utf8Size]
  rfl

theorem charsIn?_append (a b : List Char) (count : Nat) :
    charsIn? count (bytes a) (a ++ b) = some (count + a.length) := by
  induction a generalizing count with
  | nil => rw [bytes, List.foldl_nil, charsIn?]; rfl
  | cons c a ih =>
    have hbytes : bytes (c :: a) = c.utf8Size + bytes a := by
      rw [bytes, List.foldl_cons, foldl_utf8Size, Nat.zero_add]
    obtain ⟨n, hn⟩ : ∃ n, bytes (c :: a) = n + 1 := by
      have hpos := c.utf8Size_pos
      exact ⟨bytes (c :: a) - 1, by omega⟩
    have hrest : n + 1 - c.utf8Size = bytes a := by omega
    rw [hn, List.cons_append, charsIn?, if_pos (by omega), hrest, ih, List.length_cons]
    congr 1
    omega

/-- What stands before a suffix fills the difference of the lengths in bytes. -/
theorem charsIn?_bytes_sub (a b : List Char) :
    charsIn? 0 (bytes (a ++ b) - bytes b) (a ++ b) = some a.length := by
  have hbytes : bytes (a ++ b) - bytes b = bytes a := by
    rw [bytes_append]
    omega
  rw [hbytes, charsIn?_append, Nat.zero_add]

/-- The place of what stands behind a text. -/
theorem locate_append (a b : List Char) : locate (a ++ b) b = after a := by
  rw [locate, charsIn?_bytes_sub]
  simp

end Position

namespace Document

variable {source bound s t : List Char} {taken : List (Located Statement)} {here : Position}
  {e : SyntaxError} {α : Type} {o : Outcome α}

theorem settle_eq_error (h : settle source o = .error e) :
    ∃ expected place, (o = .miss expected place ∨ o = .fault expected place) ∧
      e = .within source place expected := by
  cases o with
  | read => cases h
  | miss expected place =>
    cases h
    exact ⟨expected, place, .inl rfl, rfl⟩
  | fault expected place =>
    cases h
    exact ⟨expected, place, .inr rfl, rfl⟩

theorem settle_blank_ne (he : e.expected = .shallowerList) : settle source (blank s) ≠ .error e := by
  intro h
  obtain ⟨expected, place, hmiss | hfault, rfl⟩ := settle_eq_error h
  · exact not_misses_blank s ⟨_, _, hmiss⟩
  · cases he
    exact blank_ne_fault (by decide) hfault

/-- Too deep a list is told only where there is one, behind statements that have been read. -/
theorem overrun_of_error (h : statementsFrom source bound taken here s = .error e)
    (he : e.expected = .shallowerList) :
    ∃ t, StatementsOverrun s t ∧ e = .within source t .shallowerList := by
  induction bound generalizing taken here s with
  | nil =>
    cases h
    cases he
  | cons c bound ih =>
    rw [statementsFrom] at h
    rcases bind_eq_error h with h | ⟨⟨first, s₁⟩, hfirst, h⟩
    · obtain ⟨expected, place, hmiss | hfault, rfl⟩ := settle_eq_error h
      · cases he
        exact absurd hmiss statement_ne_miss
      · cases he
        obtain ⟨r, hreach, hover⟩ := statement_eq_fault_iff.mp hfault
        exact ⟨place, .here hreach hover, rfl⟩
    rcases bind_eq_error h with h | ⟨⟨⟨⟩, s₂⟩, hs₂, h⟩
    · exact absurd h (settle_blank_ne he)
    dsimp only at h
    split at h
    · cases h
    rcases bind_eq_error h with h | ⟨⟨⟨⟩, s₃⟩, hs₃, h⟩
    · obtain ⟨expected, place, hmiss | hfault, rfl⟩ := settle_eq_error h
      · exact absurd ⟨_, _, hmiss⟩ (not_misses_required _ _)
      · cases he
        exact absurd hfault (required_ne_fault (by decide))
    rcases bind_eq_error h with h | ⟨⟨⟨⟩, s₄⟩, hs₄, h⟩
    · exact absurd h (settle_blank_ne he)
    dsimp only at h
    split at h
    · cases h
    obtain ⟨t, hover, rfl⟩ := ih h
    obtain rfl := required_eq_read_iff.mp (settle_eq_ok hs₃)
    exact ⟨t, .later (settle_eq_ok hfirst) (settle_eq_ok hs₂) (settle_eq_ok hs₄) hover, rfl⟩

/-- Too deep a list is told, with its place, once the statements before it have been read. -/
theorem statementsFrom_overrun (h : StatementsOverrun s t) (hbound : s.length ≤ bound.length) :
    statementsFrom source bound taken here s = .error (.within source t .shallowerList) := by
  induction h generalizing bound taken here with
  | here hreach hover =>
    have hne := (StatementsOverrun.here hreach hover).ne_nil
    obtain ⟨c, bound, rfl⟩ := exists_cons_of_length_le hne hbound
    rw [statementsFrom, statement_eq_fault_iff.mpr ⟨_, hreach, hover⟩]
    rfl
  | @later st s r r₁ r₂ t hread hr hr₁ hover ih =>
    have hne := (StatementsOverrun.later hread hr hr₁ hover).ne_nil
    obtain ⟨c, bound, rfl⟩ := exists_cons_of_length_le hne hbound
    have hlength : r₂.length ≤ bound.length := by
      have hr' := ((statement_within s).suffix hread).length_le
      have hr₁' := ((blank_within r).suffix hr).length_le
      have hr₂' := ((blank_within r₁).suffix hr₁).length_le
      simp only [List.length_cons] at hr₁' hbound
      omega
    have hmore : r₂.isEmpty = false := List.isEmpty_eq_false_iff.mpr hover.ne_nil
    rw [statementsFrom, hread]
    simp only [settle, bind, Except.bind, hr, List.isEmpty_cons, required, if_pos, hr₁, hmore]
    exact ih hlength

/-- A document leads to lists that are nested too deep: `place` stands behind the bracket of the one that
has too many around it, and whatever comes before that is in order. -/
def NestsTooDeep (text place : List Char) : Prop :=
  ∃ s, blank text = .read () s ∧ StatementsOverrun s place

theorem NestsTooDeep.exists_before {text place : List Char} (h : NestsTooDeep text place) :
    ∃ before, text = before ++ '[' :: place := by
  obtain ⟨s, hblank, hover⟩ := h
  obtain ⟨before, hbefore⟩ := hover.suffix.trans ((blank_within text).suffix hblank)
  exact ⟨before, hbefore.symm⟩

/-- Whatever document is read has a statement, and its statements can be written again: no name and no text
in them holds a quote or a line break, values are set flags, texts and records, a parameter of the group is
no flag, and no more than `maxListDepth` lists stand inside one another. A source in which one more list
opens, with nothing wrong before it, is refused right behind the bracket of that list, and no other is
refused for that reason. -/
theorem read_bounded (source : String) :
    (∀ located, read source = .ok located → located ≠ [] ∧ ∀ st ∈ located,
      st.value.Worded fun s => '\x22' ∉ s.toList ∧ '\n' ∉ s.toList ∧ '\r' ∉ s.toList) ∧
    (∀ place, NestsTooDeep source.toList place → ∃ before, source.toList = before ++ '[' :: place ∧
      read source =
        .error ⟨Position.after (before ++ ['[']), .shallowerList, excerpt place⟩) ∧
    ∀ e, read source = .error e → e.expected = .shallowerList →
      ∃ place, NestsTooDeep source.toList place := by
  refine ⟨?_, ?_, ?_⟩
  · intro located h
    constructor
    · obtain ⟨⟨⟨⟩, s⟩, -, h⟩ := exists_of_bind_eq_ok h
      obtain ⟨first, t, more, -, rfl⟩ := statementsFrom_eq_ok h
      simp
    · have hquotable : Quotable = fun s => '\x22' ∉ s.toList ∧ '\n' ∉ s.toList ∧ '\r' ∉ s.toList :=
        funext fun s => propext quotable_iff
      rw [← hquotable]
      exact read_worded h
  · intro place h
    obtain ⟨before, hbefore⟩ := h.exists_before
    refine ⟨before, hbefore, ?_⟩
    obtain ⟨s, hblank, hover⟩ := h
    have hplace : Position.locate source.toList place = Position.after (before ++ ['[']) := by
      rw [hbefore, ← Position.locate_append (before ++ ['[']) place]
      simp
    rw [← hplace]
    simp only [read, hblank, settle, bind, Except.bind]
    exact statementsFrom_overrun hover (Nat.le_refl _)
  · intro e h he
    rcases bind_eq_error h with h | ⟨⟨⟨⟩, s⟩, hblank, h⟩
    · exact absurd h (settle_blank_ne he)
    · obtain ⟨t, hover, -⟩ := overrun_of_error h he
      exact ⟨t, s, settle_eq_ok hblank, hover⟩

/-- The list with room for no other opens in the last but one column. -/
theorem read_bounded_opened :
    (∃ located, read "A[a=[b]]; B = 1" = .ok located ∧ ∀ st ∈ located,
      st.value.Worded fun s => '\x22' ∉ s.toList ∧ '\n' ∉ s.toList ∧ '\r' ∉ s.toList) ∧
    read (String.ofList ('A' :: opened (List.replicate maxListDepth "a") ['[', 'x'])) =
      .error ⟨⟨1, 195⟩, .shallowerList, "'x'"⟩ := by
  obtain ⟨located, hread⟩ : ∃ located, read "A[a=[b]]; B = 1" = .ok located := ⟨_, rfl⟩
  refine ⟨⟨located, hread, ((read_bounded _).1 located hread).2⟩, ?_⟩
  have hnames : ∀ w ∈ List.replicate maxListDepth "a", ∃ key, written? key = some w ∧ Shown key := by
    intro w hw
    rw [List.eq_of_mem_replicate hw]
    exact ⟨"a", rfl, fun _ _ => rfl⟩
  have hover := overruns_opened hnames ['x']
  rw [List.length_replicate] at hover
  have hreach : Reaches ('A' :: opened (List.replicate maxListDepth "a") ['[', 'x'])
      (opened (List.replicate maxListDepth "a") ['[', 'x']) :=
    .node (fun _ _ h => by cases h) rfl rfl
  have hdeep : NestsTooDeep (String.ofList
      ('A' :: opened (List.replicate maxListDepth "a") ['[', 'x'])).toList ['x'] := by
    rw [String.toList_ofList]
    exact ⟨_, rfl, .here hreach hover⟩
  obtain ⟨before, hbefore, herror⟩ := (read_bounded _).2.1 ['x'] hdeep
  obtain rfl : before = 'A' :: opened (List.replicate maxListDepth "a") [] := by
    have happend := opened_append (List.replicate maxListDepth "a") [] ['[', 'x']
    rw [List.nil_append] at happend
    rw [String.toList_ofList, happend, ← List.cons_append] at hbefore
    exact (List.append_cancel_right hbefore).symm
  have hplace :
      Position.after ('A' :: opened (List.replicate maxListDepth "a") [] ++ ['[']) = ⟨1, 195⟩ := by
    decide +kernel
  rw [herror, hplace]
  rfl

end Document

end DecayForest
