import DecayForest.Proofs.Grammar.Yield
/-!
# The lexical rule of names

What counts as an identifier, told without the readers of it. A bare name is a text of letters, digits,
punctuation and dashes in which no arrow stands (`isBare_iff`); any other identifier is a text in quotes
(`isIdentifier_iff`). A name has a spelling unless it holds a quote or a line break
(`written?_eq_none_iff`), and the spelling reads back before whatever ends a bare name
(`identifier_written`).
-/

namespace DecayForest.Grammar

variable {s : String} {l taken rest : List Char}

theorem Outcome.all_iff {α : Type} {o : Outcome α} : o.all = true ↔ ∃ a, o = .read a [] := by
  constructor
  · intro h
    unfold Outcome.all at h
    split at h
    · exact ⟨_, rfl⟩
    · contradiction
  · rintro ⟨a, rfl⟩
    rfl

/-- A run comes to the end of a text of word characters without an arrow, and of no other. -/
theorem runFrom_eq_nil_iff : (runFrom taken l).2 = [] ↔
    (∀ c ∈ l, isWordChar c = true) ∧ ¬ ['-', '>'] <:+: l := by
  constructor
  · intro h
    refine ⟨isWordChar_of_runFrom h, ?_⟩
    rintro ⟨before, after, rfl⟩
    -- the run stops before the arrow, so the arrow is left
    have hstop := runFrom_append_of_stops (stops_arrow after)
      (runFrom_of_append (runFrom_of_append h))
    simp [hstop] at h
  · rintro ⟨hwords, harrow⟩
    fun_induction runFrom taken l with
    | case1 taken s => exact absurd (List.prefix_append ['-', '>'] s).isInfix harrow
    | case2 taken c s _ _ ih =>
      apply ih
      · exact (List.forall_mem_cons.mp hwords).2
      · intro h
        exact harrow (h.trans (List.suffix_cons c s).isInfix)
    | case3 taken c s _ hc => exact absurd (List.forall_mem_cons.mp hwords).1 hc
    | case4 => rfl

/-- The lexical rule of bare names. A dash may stand anywhere, also first or last, unless `>` follows. -/
theorem isBare_iff : isBare s = true ↔
    s ≠ "" ∧ (∀ c ∈ s.toList, isWordChar c = true) ∧ ¬ ['-', '>'] <:+: s.toList := by
  rw [Ne, ← String.toList_eq_nil_iff, ← runFrom_eq_nil_iff]
  constructor
  · exact runFrom_of_isBare
  · intro h
    exact isBare_of_runFrom h.1 h.2

theorem quotable_iff : Quotable s ↔ '\x22' ∉ s.toList ∧ '\n' ∉ s.toList ∧ '\r' ∉ s.toList := by
  rw [Quotable, List.all_eq_true]
  constructor
  · intro h
    refine ⟨?_, ?_, ?_⟩ <;> intro hc <;> cases h _ hc
  · intro h c hc
    have hne : ∀ d, d ∉ s.toList → c ≠ d := by
      rintro d hd rfl
      exact hd hc
    simp [isQuotable, hne _ h.1, hne _ h.2.1, hne _ h.2.2]

theorem quotable_of_isBare (h : isBare s = true) : Quotable s :=
  List.all_eq_true.mpr fun c hc => isQuotable_of_isWordChar (isWordChar_of_isBare h c hc)

/-- The lexical rule of identifiers: bare names, and texts on one line in quotes. -/
theorem isIdentifier_iff : isIdentifier s = true ↔
    isBare s = true ∨ ∃ t, Quotable t ∧ s = "\x22" ++ t ++ "\x22" := by
  rw [isIdentifier, Outcome.all_iff]
  constructor
  · rintro ⟨name, h⟩
    unfold identifier at h
    split at h
    · next heq =>
      obtain ⟨hs, hname⟩ := quotedId_split h
      refine .inr ⟨name, hname, ?_⟩
      apply String.toList_inj.mp
      simp [heq, hs]
    · exact .inl (Outcome.all_iff.mpr ⟨name, h⟩)
  · rintro (h | ⟨t, ht, rfl⟩)
    · have hends : Stops [] := .inl nofun
      have hread := identifier_bare h hends
      rw [List.append_nil] at hread
      exact ⟨s, hread⟩
    · have hread : identifier _ = .read t [] := identifier_quoted ht []
      exact ⟨t, by simpa using hread⟩

/-- A name that no text spells holds what ends a text in quotes. -/
theorem written?_eq_none_iff : written? s = none ↔ ¬ Quotable s := by
  unfold written?
  split
  · next h =>
    rw [Bool.and_eq_true] at h
    simp [quotable_of_isBare h.1]
  · split
    · next h => simp [Quotable, h]
    · next h => simpa [Quotable] using h

theorem isWordChar_iff {c : Char} :
    isWordChar c = true ↔ c.isAlphanum = true ∨ c ∈ punctuation ∨ c = '-' := by
  simp [isWordChar, isIdChar, or_assoc]

/-- The predicates on names, and the spelling of a name, are the lexical rule: bare names are nonempty, of
letters, digits, punctuation and dashes, and without an arrow; identifiers are bare or in quotes; and a
name without quotes and line breaks has a spelling that reads back, wherever no identifier goes on behind
it or an arrow stands there. -/
theorem names_follow_lexical_rule (s : String) :
    (isBare s = true ↔ s ≠ "" ∧
      (∀ c ∈ s.toList, c.isAlphanum = true ∨ c ∈ punctuation ∨ c = '-') ∧
      ¬ ['-', '>'] <:+: s.toList) ∧
    (isIdentifier s = true ↔ isBare s = true ∨
      ∃ t : String, ('\x22' ∉ t.toList ∧ '\n' ∉ t.toList ∧ '\r' ∉ t.toList) ∧
        s = "\x22" ++ t ++ "\x22") ∧
    (written? s = none ↔ '\x22' ∈ s.toList ∨ '\n' ∈ s.toList ∨ '\r' ∈ s.toList) ∧
    ∀ w, written? s = some w → ∀ rest : List Char,
      (rest = [] ∨ (∃ c t, rest = c :: t ∧ isIdChar c = false ∧ c ≠ '-') ∨
        ∃ t, rest = '-' :: '>' :: t) →
      identifier (w.toList ++ rest) = .read s rest := by
  refine ⟨?_, ?_, ?_, ?_⟩
  · simpa only [isWordChar_iff] using isBare_iff
  · simpa only [quotable_iff] using isIdentifier_iff
  · rw [written?_eq_none_iff, quotable_iff]
    simp only [not_and_or, not_not]
  · intro w hw rest hrest
    apply identifier_written hw
    rcases hrest with rfl | ⟨c, t, rfl, hc, hdash⟩ | ⟨t, rfl⟩
    · exact .inl nofun
    · apply Ends.stops
      apply ends_of_not
      simp [isWordChar, hc, hdash]
    · exact stops_arrow t

/-- A dash at the end of a name is kept before an arrow, and so is one at the start. -/
theorem dashes_follow_lexical_rule :
    written? "-a--" = some "-a--" ∧
    identifier ("-a--".toList ++ ['-', '>', 'b']) = .read "-a--" ['-', '>', 'b'] ∧
    written? "decay" = some "\x22decay\x22" ∧
    identifier ("\x22decay\x22".toList ++ ['=']) = .read "decay" ['='] :=
  have hbare : written? "-a--" = some "-a--" := rfl
  have hquoted : written? "decay" = some "\x22decay\x22" := rfl
  ⟨hbare, (names_follow_lexical_rule "-a--").2.2.2 _ hbare _ (.inr (.inr ⟨['b'], rfl⟩)), hquoted,
    (names_follow_lexical_rule "decay").2.2.2 _ hquoted _ (.inr (.inl ⟨'=', [], rfl, rfl, by decide⟩))⟩

end DecayForest.Grammar
