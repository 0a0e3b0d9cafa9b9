import DecayForest.Proofs.Grammar.Spelling
/-!
# Tokens and their layout

A document is a sequence of tokens with blanks and comments around them. `Layout` tells all the texts that
lay out given tokens: a filler may stand anywhere between two of them and has to stand between two words.
Whatever fillers are chosen, what is blank is skipped up to the next token (`Layout.blank_gives`), and
each token is read as itself.
-/

namespace DecayForest

/-- The word that opens a default. -/
def Scope.word : Scope → String
  | .particle => "particle"
  | .decay => "decay"

namespace Grammar

/-! ### Fillers -/

/-- Blanks and comments, also none. Line comments are ended by a line break, and block comments are closed
and do not hold their own end. -/
inductive Filler : List Char → Prop
  | none : Filler []
  | space {c : Char} {s : List Char} : isSpace c = true → Filler s → Filler (c :: s)
  | line {opening text s : List Char} {c : Char} : opening = ['/', '/'] ∨ opening = ['#'] →
    (∀ d ∈ text, d ≠ '\n' ∧ d ≠ '\r') → c = '\n' ∨ c = '\r' → Filler s →
    Filler (opening ++ text ++ c :: s)
  | block {text s : List Char} : text.IsChain (fun c d => c = '*' → d ≠ '/') → Filler s →
    Filler ('/' :: '*' :: (text ++ '*' :: '/' :: s))

variable {l s rest : List Char} {c : Char}

theorem blankFrom_line {text : List Char} (htext : ∀ d ∈ text, d ≠ '\n' ∧ d ≠ '\r')
    (hc : c = '\n' ∨ c = '\r') : blankFrom .line (text ++ c :: s) = blank s := by
  induction text with
  | nil =>
    rw [List.nil_append, blankFrom, if_pos (by simpa using hc)]
    rfl
  | cons d text ih =>
    obtain ⟨hd, htext⟩ := List.forall_mem_cons.mp htext
    rw [List.cons_append, blankFrom, if_neg (by simpa using hd)]
    exact ih htext

theorem blankFrom_block {text : List Char} (htext : text.IsChain fun c d => c = '*' → d ≠ '/')
    (body : List Char) : blankFrom (.block body) (text ++ '*' :: '/' :: s) = blank s := by
  induction text with
  | nil =>
    rw [List.nil_append, blankFrom]
    rfl
  | cons c text ih =>
    rw [List.cons_append, blankFrom]
    · exact ih htext.tail
    -- the comment does not end within its text, nor with the last character of it
    · rintro t rfl heq
      rcases text with _ | ⟨d, text⟩
      · cases heq
      · obtain ⟨rfl, -⟩ := List.cons.inj heq
        exact (List.isChain_cons_cons.mp htext).1 rfl rfl

/-- A filler is skipped. -/
theorem blank_filler (h : Filler l) : blank (l ++ rest) = blank rest := by
  induction h with
  | none => rfl
  | @space c s hc _ ih =>
    have hslash : c ≠ '/' := by
      rintro rfl
      cases hc
    have hhash : c ≠ '#' := by
      rintro rfl
      cases hc
    rw [List.cons_append, blank, blankFrom, if_neg hhash, if_pos hc]
    · exact ih
    · exact fun _ h _ => hslash h
    · exact fun _ h _ => hslash h
  | @line opening text s c hopening htext hc _ ih =>
    rw [List.append_assoc, List.append_assoc, List.cons_append, ← ih]
    rcases hopening with rfl | rfl
    · exact blankFrom_line htext hc
    · exact blankFrom_line htext hc
  | @block text s htext _ ih =>
    rw [List.cons_append, List.cons_append, List.append_assoc, List.cons_append, List.cons_append, ← ih]
    exact blankFrom_block htext _

/-! ### Tokens -/

/-- The signs of the grammar, arrows apart. -/
def signs : List Char := ['[', ']', '\x7b', '\x7d', ',', '=', ';']

/-- The tokens of documents. A name is told together with its spelling. -/
inductive Token where
  | bare (name : String)
  | quoted (name : String)
  | keyword (scope : Scope) (word : List Char)
  | sign (c : Char)
  | arrow

namespace Token

/-- The text of a token. -/
def text : Token → List Char
  | bare name => name.toList
  | quoted name => '\x22' :: (name.toList ++ ['\x22'])
  | keyword _ word => word
  | sign c => [c]
  | arrow => ['-', '>']

/-- The name that a token spells. -/
def name? : Token → Option String
  | bare name | quoted name => some name
  | keyword _ _ | sign _ | arrow => none

/-- What a token may hold: a bare name is no keyword and opens no comment, a quoted name stands on one line
and has no quote in it, and keywords are in any letter case. -/
def Proper : Token → Prop
  | bare name => isBare name = true ∧ isKeyword name = false ∧ Commentless name
  | quoted name => name.toList.all isQuotable = true
  | keyword scope word => word.map Char.toLower = scope.word.toList
  | sign c => c ∈ signs
  | arrow => True

instance : DecidablePred Proper
  | bare _ => inferInstanceAs (Decidable (_ ∧ _ ∧ _))
  | quoted _ | keyword _ _ => inferInstanceAs (Decidable (_ = _))
  | sign c => inferInstanceAs (Decidable (c ∈ signs))
  | arrow => instDecidableTrue

/-- Whether a token would go on in a word behind it. -/
def isWord : Token → Bool
  | bare _ | keyword _ _ => true
  | quoted _ | sign _ | arrow => false

end Token

/-- What may stand between a token and the next. A filler behind a word opens with a blank, and two words
are kept apart. -/
structure Between (t : Token) (gap : List Char) (next : Option Token) : Prop where
  filler : Filler gap
  opens : t.isWord = true → ∀ c ∈ gap.head?, isSpace c = true
  apart : t.isWord = true → (∃ u ∈ next, u.isWord = true) → gap ≠ []

/-- The texts of some tokens, each with a filler behind it. -/
inductive Flush : List Token → List Char → Prop
  | nil : Flush [] []
  | cons {t : Token} {ts : List Token} {gap text : List Char} : t.Proper → Between t gap ts.head? →
    Flush ts text → Flush (t :: ts) (t.text ++ (gap ++ text))

/-- A text lays out some tokens, with fillers before, between and behind them. -/
def Layout (ts : List Token) (s : List Char) : Prop :=
  ∃ gap text, Filler gap ∧ Flush ts text ∧ s = gap ++ text

variable {ts us : List Token} {t : Token} {gap text : List Char}

/-- Tokens may stand side by side if one of them is no word. -/
theorem Flush.beside (ht : t.Proper) (h : t.isWord = true → ¬ ∃ u ∈ ts.head?, u.isWord = true)
    (hts : Flush ts s) : Flush (t :: ts) (t.text ++ s) :=
  .cons ht ⟨.none, nofun, fun hword hnext => absurd hnext (h hword)⟩ hts

/-- Any two tokens may stand with a space between them. -/
theorem Flush.spaced (ht : t.Proper) (hts : Flush ts s) : Flush (t :: ts) (t.text ++ ' ' :: s) :=
  .cons ht ⟨.space rfl .none, fun _ _ hc => by cases hc; rfl, nofun⟩ hts

theorem Flush.layout (h : Flush ts s) : Layout ts s := ⟨[], s, .none, h, rfl⟩

/-! ### What tokens begin with -/

theorem of_mem_signs (h : c ∈ signs) :
    isWordChar c = false ∧ c ≠ '\x22' ∧ c ≠ '#' ∧ isSpace c = false := by
  have hall : (signs.all fun c => !isWordChar c && c != '\x22' && c != '#' && !isSpace c) = true := by
    decide
  simpa [and_assoc] using List.all_eq_true.mp hall c h

/-- A word comes to its end before the next token. -/
theorem Between.stops (h : Between t gap ts.head?) (ht : t.isWord = true) (hts : Flush ts text) :
    Stops (gap ++ text) := by
  rcases gap with _ | ⟨c, gap⟩
  · cases hts with
    | nil => exact .inl nofun
    | @cons u ts gap text hu _ _ =>
      cases u with
      | bare name => exact absurd rfl (h.apart ht ⟨_, rfl, rfl⟩)
      | keyword scope word => exact absurd rfl (h.apart ht ⟨_, rfl, rfl⟩)
      | quoted name => exact (ends_of_not (c := '\x22') (by decide) _).stops
      | sign c => exact (ends_of_not (of_mem_signs hu).1 _).stops
      | arrow => exact stops_arrow _
  · have hspace := h.opens ht c rfl
    have hc : ((c = ' ' ∨ c = '\t') ∨ c = '\n') ∨ c = '\r' := by simpa [isSpace] using hspace
    refine (ends_of_not ?_ _).stops
    rcases hc with ((rfl | rfl) | rfl) | rfl <;> decide

/-- What stands behind the first token is a layout of the others, and it ends a word. -/
theorem Flush.uncons (h : Flush (t :: ts) s) :
    ∃ r, s = t.text ++ r ∧ t.Proper ∧ Layout ts r ∧ (t.isWord = true → Stops r) := by
  cases h with
  | cons ht hgap hts => exact ⟨_, rfl, ht, ⟨_, _, hgap.filler, hts, rfl⟩, fun h => hgap.stops h hts⟩

theorem Flush.sign (h : Flush (.sign c :: ts) s) : ∃ r, s = c :: r ∧ Layout ts r := by
  obtain ⟨r, rfl, -, hr, -⟩ := h.uncons
  exact ⟨r, rfl, hr⟩

theorem Flush.arrow (h : Flush (.arrow :: ts) s) : ∃ r, s = '-' :: '>' :: r ∧ Layout ts r := by
  obtain ⟨r, rfl, -, hr, -⟩ := h.uncons
  exact ⟨r, rfl, hr⟩

/-- The letters of a keyword are characters of words. -/
theorem Token.Proper.isWordChar_keyword {scope : Scope} {word : List Char}
    (h : (Token.keyword scope word).Proper) : ∀ c ∈ word, isWordChar c = true ∧ c ≠ '/' := by
  have hall : (scope.word.toList.all Char.isLower) = true := by
    cases scope <;> decide
  have hlower := List.all_eq_true.mp hall
  intro c hc
  have hmem : c.toLower ∈ scope.word.toList := by
    rw [← show word.map Char.toLower = _ from h]
    exact List.mem_map_of_mem hc
  refine ⟨isWordChar_of_toLower (hlower _ hmem), ?_⟩
  rintro rfl
  exact absurd (hlower _ hmem) (by decide)

theorem Token.Proper.text_ne_nil (h : t.Proper) : t.text ≠ [] := by
  cases t with
  | bare name => exact (runFrom_of_isBare h.1).1
  | keyword scope word =>
    rintro rfl
    cases scope <;> cases h
  | quoted | sign | arrow => exact List.cons_ne_nil _ _

/-- There is no blank before a token. -/
theorem Flush.blank_eq (h : Flush ts s) : blank s = .read () s := by
  rcases ts with _ | ⟨t, ts⟩
  · cases h
    rfl
  obtain ⟨r, rfl, ht, -, hstops⟩ := h.uncons
  cases t with
  | bare name => exact blank_bare ht.1 (ht.2.2.legible.clear ht.1).1 (hstops rfl)
  | quoted name => exact blank_quote _
  | keyword scope word =>
    have hapart : word.IsChain Apart := by
      refine (List.pairwise_of_forall_mem_list fun c hc d _ h => ?_).isChain
      exact absurd h (ht.isWordChar_keyword c hc).2
    exact blank_words ht.text_ne_nil (fun c hc => (ht.isWordChar_keyword c hc).1)
      (opensComment_of_isChain hapart) (hstops rfl)
  | sign c =>
    obtain ⟨hword, -, hhash, hspace⟩ := of_mem_signs ht
    have hslash : c ≠ '/' := (ne_of_isWordChar (by decide) hword).symm
    exact blank_cons (fun _ _ h => absurd h hslash) hhash hspace
  | arrow => exact blank_of_not (c := '-') (by decide) _

/-- A sign at the start of a text is a token of its own. -/
theorem Flush.head_eq_sign (h : Flush ts (c :: rest)) (hc : c ∈ signs) : ts.head? = some (.sign c) := by
  obtain ⟨hword, hquote, -⟩ := of_mem_signs hc
  have hno : ¬ isWordChar c = true := Bool.eq_false_iff.mp hword
  rcases ts with _ | ⟨t, ts⟩
  · cases h
  obtain ⟨r, heq, ht, -⟩ := h.uncons
  rcases hl : t.text with _ | ⟨d, l⟩
  · exact absurd hl ht.text_ne_nil
  rw [hl] at heq
  obtain ⟨rfl, -⟩ := List.cons.inj heq
  have hmem : c ∈ t.text := hl ▸ List.mem_cons_self
  cases t with
  | bare name => exact absurd (isWordChar_of_isBare ht.1 c hmem) hno
  | keyword scope word => exact absurd (ht.isWordChar_keyword c hmem).1 hno
  | quoted name => exact absurd (List.cons.inj hl).1.symm hquote
  | sign d => exact congrArg (some ∘ Token.sign) (List.cons.inj hl).1
  | arrow =>
    cases (List.cons.inj hl).1
    exact absurd rfl hno

/-- Each token takes a character at least. -/
theorem Flush.length_le (h : Flush ts s) : ts.length ≤ s.length := by
  induction h with
  | nil => exact Nat.le_refl _
  | cons ht _ _ ih =>
    have hpos := List.length_pos_iff.mpr ht.text_ne_nil
    simp only [List.length_append, List.length_cons]
    omega

/-! ### Rules on layouts -/

variable {α β : Type} {o : Outcome α} {a : α} {b : β} {next : α → List Char → Outcome β}
  {P Q : List Char → Prop} {name : String}

/-- A value is read, and what follows it has some property. -/
def Outcome.Gives (o : Outcome α) (a : α) (P : List Char → Prop) : Prop :=
  ∃ s, o = .read a s ∧ P s

/-- The rule does not apply. -/
def Outcome.Misses (o : Outcome α) : Prop :=
  ∃ e place, o = .miss e place

namespace Outcome

theorem Gives.bind (h : o.Gives a P) (hnext : ∀ s, P s → (next a s).Gives b Q) :
    (o.bind next).Gives b Q := by
  obtain ⟨s, rfl, hs⟩ := h
  exact hnext s hs

theorem Gives.bind_misses (h : o.Gives a P) (hnext : ∀ s, P s → (next a s).Misses) :
    (o.bind next).Misses := by
  obtain ⟨s, rfl, hs⟩ := h
  exact hnext s hs

theorem Gives.map (h : o.Gives a P) (f : α → β) : (o.map f).Gives (f a) P :=
  h.bind fun s hs => ⟨s, rfl, hs⟩

theorem Gives.optional (h : o.Gives a P) (s : List Char) : (o.optional s).Gives (some a) P := by
  obtain ⟨r, rfl, hr⟩ := h
  exact ⟨r, rfl, hr⟩

theorem bind_eq_read {r : List Char} :
    o.bind next = .read b r ↔ ∃ a s, o = .read a s ∧ next a s = .read b r := by
  cases o <;> simp [Outcome.bind]

theorem Within.length_le {r : List Char} (h : (Outcome.read a r).Within s) : r.length ≤ s.length :=
  List.IsSuffix.length_le h

theorem Misses.bind (h : o.Misses) : (o.bind next).Misses := by
  obtain ⟨e, place, rfl⟩ := h
  exact ⟨e, place, rfl⟩

theorem Misses.optional (h : o.Misses) (hs : P s) : (o.optional s).Gives none P := by
  obtain ⟨e, place, rfl⟩ := h
  exact ⟨s, rfl, hs⟩

end Outcome

/-- What is blank is skipped, up to the next token. -/
theorem Layout.blank_gives (h : Layout ts s) : (blank s).Gives () (Flush ts) := by
  obtain ⟨gap, text, hgap, htext, rfl⟩ := h
  exact ⟨text, by rw [blank_filler hgap, htext.blank_eq], htext⟩

/-- A name is read from the token that spells it. -/
theorem Flush.identifier_gives (h : Flush (t :: ts) s) (ht : t.name? = some name) :
    (identifier s).Gives name (Layout ts) := by
  obtain ⟨r, rfl, hproper, hr, hstops⟩ := h.uncons
  cases t with
  | bare =>
    cases ht
    exact ⟨r, identifier_bare hproper.1 (hstops rfl), hr⟩
  | quoted =>
    cases ht
    exact ⟨r, identifier_quoted hproper r, hr⟩
  | keyword | sign | arrow => cases ht

/-- No name begins with a sign. -/
theorem Flush.identifier_misses (h : Flush (.sign c :: ts) s) (hc : c ∈ signs) :
    (identifier s).Misses := by
  obtain ⟨hword, hquote, -⟩ := of_mem_signs hc
  obtain ⟨r, rfl, -⟩ := h.sign
  exact ⟨_, _, identifier_of_not hword hquote r⟩

theorem isWordChar_of_continuesWord (h : continuesWord c = true) :
    isWordChar c = true ∧ c ≠ '-' := by
  have hc : (c.isAlphanum = true ∨ c = '_') ∨ c = '$' := by simpa [continuesWord] using h
  rcases hc with (hc | rfl) | rfl
  · refine ⟨by simp [isWordChar, isIdChar, hc], ?_⟩
    rintro rfl
    cases hc
  · decide
  · decide

/-- A keyword is found in any letter case. -/
theorem afterWord?_of_map {word w : List Char} (h : w.map Char.toLower = word) (rest : List Char) :
    afterWord? word (w ++ rest) = some rest := by
  subst h
  induction w with
  | nil => rfl
  | cons c w ih => rw [List.map_cons, List.cons_append, afterWord?, if_pos rfl, ih]

/-- A keyword is there where it cannot go on. -/
theorem keyword?_of_afterWord {scope : Scope} (h : afterWord? scope.word.toList l = some rest)
    (hends : ∀ c ∈ rest.head?, continuesWord c = false) : keyword? l = some (scope, rest) := by
  rw [keyword?, List.findSome?_cons]
  cases scope with
  | particle =>
    have hafter : afterWord? "particle".toList l = some rest := h
    rcases rest with _ | ⟨c, rest⟩
    · simp only [hafter]
    · simp only [hafter, hends c rfl, Bool.false_eq_true, if_false]
  | decay =>
    have hafter : afterWord? "decay".toList l = some rest := h
    have hfirst : afterWord? "particle".toList l = none := by
      rcases l with _ | ⟨c, l⟩
      · cases h
      · have hc : c.toLower = 'd' := by
          by_contra hc
          cases (if_neg hc : afterWord? "decay".toList (c :: l) = none).symm.trans hafter
        exact if_neg (by rw [hc]; decide)
    rw [List.findSome?_cons]
    rcases rest with _ | ⟨c, rest⟩
    · simp only [hfirst, hafter]
    · simp only [hfirst, hafter, hends c rfl, Bool.false_eq_true, if_false]

/-- A keyword is read where no word goes on behind it. -/
theorem keyword?_append {scope : Scope} {w : List Char} (h : w.map Char.toLower = scope.word.toList)
    (hrest : Stops rest) : keyword? (w ++ rest) = some (scope, rest) := by
  refine keyword?_of_afterWord (afterWord?_of_map h rest) ?_
  rintro c hc
  obtain ⟨rest, rfl⟩ := List.head?_eq_some_iff.mp hc
  refine Bool.eq_false_iff.mpr fun h => ?_
  obtain ⟨hword, hdash⟩ := isWordChar_of_continuesWord h
  rcases hrest.not_cons with hno | heq
  · cases hword.symm.trans hno
  · exact hdash heq

/-- A default opens with its keyword. -/
theorem Flush.keyword?_eq {scope : Scope} {word : List Char} (h : Flush (.keyword scope word :: ts) s) :
    ∃ r, keyword? s = some (scope, r) ∧ Layout ts r := by
  obtain ⟨r, rfl, hproper, hr, hstops⟩ := h.uncons
  exact ⟨r, keyword?_append hproper (hstops rfl), hr⟩

theorem Flush.character_gives (h : Flush (.sign c :: ts) s) : (character c s).Gives () (Layout ts) := by
  obtain ⟨r, rfl, hr⟩ := h.sign
  exact ⟨r, if_pos rfl, hr⟩

theorem Flush.required_gives (h : Flush (.sign c :: ts) s) : (required c s).Gives () (Layout ts) := by
  obtain ⟨r, rfl, hr⟩ := h.sign
  exact ⟨r, if_pos rfl, hr⟩

/-- A sign is missed where another token stands. -/
theorem Flush.character_misses (h : Flush ts s) (hc : c ∈ signs) (hne : ts.head? ≠ some (.sign c)) :
    (character c s).Misses := by
  rcases s with _ | ⟨d, s⟩
  · exact ⟨_, _, rfl⟩
  · refine ⟨_, _, if_neg ?_⟩
    rintro rfl
    exact hne (h.head_eq_sign hc)

theorem Flush.paramList_misses (h : Flush ts s) (hne : ts.head? ≠ some (.sign '[')) (room : Nat) :
    (paramList room s).Misses := by
  rcases s with _ | ⟨c, s⟩
  · cases room <;> exact ⟨_, _, rfl⟩
  · refine ⟨_, _, paramList_of_ne ?_ s⟩
    rintro rfl
    exact hne (h.head_eq_sign (by decide))

end Grammar

end DecayForest
