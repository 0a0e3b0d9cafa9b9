import DecayForest.Grammar.Statement
import Mathlib.Data.List.Chain
/-!
# Names as they are spelled

A bare name reads back wherever no character of an identifier follows it, or an arrow does
(`identifier_bare`), and a name in quotes anywhere (`identifier_quoted`). The spelling of a name
(`written?`) is one or the other. If the name is legible, its spelling is no blank either, and a
statement that begins with it is not taken for a default. A name in which no comment opens is legible
(`Commentless.legible`). Where a line of its own belongs to the statement, a comment may open behind a
keyword, if it ends with the line (`Leading`).
-/

namespace DecayForest.Grammar

/-- No comment opens with the second of two characters. -/
def Apart (c d : Char) : Prop :=
  c = '/' → d ≠ '/' ∧ d ≠ '*'

/-- No comment opens within a text. -/
def Commentless (s : String) : Prop :=
  s.toList.IsChain Apart

/-- A comment opens at the start of a text. -/
def opensComment : List Char → Bool
  | '/' :: '/' :: _ | '/' :: '*' :: _ => true
  | _ => false

/-- Without quotes, the start of a name is taken for a comment, at once or behind a keyword. -/
def isHidden (s : String) : Bool :=
  isBare s && (opensComment s.toList ||
    keywords.any fun word => (afterWord? word.toList s.toList).any opensComment)

/-- A name or text can be seen wherever it is written. -/
def Legible (s : String) : Prop :=
  isHidden s = false

/-- The spelling of a text is seen where no keyword is looked for: it opens no comment. -/
def Shown (s : String) : Prop :=
  isBare s = true → isKeyword s = false → opensComment s.toList = false

/-- The spelling of a name is seen where a statement opens, before some text. If a comment opens in it
behind a keyword, that comment comes to an end, and the list of a default does not follow. -/
def ShownBefore (s : String) (next : List Char) : Prop :=
  isBare s = true → isKeyword s = false → opensComment s.toList = false ∧
    ∀ word ∈ keywords, ∀ more, afterWord? word.toList s.toList = some more →
      ∃ r, blank (more ++ next) = .read () r ∧ r.head? ≠ some '['

/-- A block comment opens at the start of a text. -/
def opensBlock : List Char → Bool
  | '/' :: '*' :: _ => true
  | _ => false

/-- Without quotes, a block comment opens in a name behind a keyword. -/
def isBlocked (s : String) : Bool :=
  isBare s && keywords.any fun word => (afterWord? word.toList s.toList).any opensBlock

/-- The spelling of a name is seen at the start of a line. -/
def Leading (s : String) : Prop :=
  Shown s ∧ isBlocked s = false

/-- A text goes on in its line. -/
def Unbroken (s : String) : Prop :=
  ∀ c ∈ s.toList, c ≠ '\n' ∧ c ≠ '\r'

/-- No list opens a text, nor stands there behind blanks. -/
def Unlisted (rest : List Char) : Prop :=
  ∃ r, blank rest = .read () r ∧ r.head? ≠ some '['

/-- Whether white space or a comment can open with a character. -/
def opensBlank (c : Char) : Bool :=
  c = '/' || c = '#' || isSpace c

/-- Whether a character can belong to a bare identifier. -/
def isWordChar (c : Char) : Bool :=
  isIdChar c || c = '-'

/-- No identifier goes on at the start of a text. -/
def Ends (rest : List Char) : Prop :=
  ∀ c ∈ rest.head?, isWordChar c = false

/-- A bare identifier before a text comes to its end there: no identifier goes on, or an arrow stands
there. -/
def Stops (rest : List Char) : Prop :=
  Ends rest ∨ ∃ s, rest = '-' :: '>' :: s

instance : DecidableRel Apart := fun _ _ => inferInstanceAs (Decidable (_ → _))

instance (s : String) : Decidable (Commentless s) := inferInstanceAs (Decidable (List.IsChain _ _))

instance (s : String) : Decidable (Legible s) := inferInstanceAs (Decidable (_ = _))

instance (s : String) : Decidable (Shown s) := inferInstanceAs (Decidable (_ → _ → _))

instance (s : String) : Decidable (Unbroken s) := List.decidableBAll _ s.toList

instance (s : String) : Decidable (Leading s) := inferInstanceAs (Decidable (_ ∧ _))

variable {s w : String} {l rest taken : List Char} {c : Char}

theorem Ends.not_cons (h : Ends (c :: rest)) : isWordChar c = false := h c rfl

theorem ends_of_not {c : Char} (h : isWordChar c = false) (rest : List Char) :
    Ends (c :: rest) := by
  rintro _ ⟨⟩
  exact h

theorem Ends.stops (h : Ends rest) : Stops rest := .inl h

theorem stops_arrow (rest : List Char) : Stops ('-' :: '>' :: rest) := .inr ⟨rest, rfl⟩

theorem Stops.not_cons (h : Stops (c :: rest)) : isWordChar c = false ∨ c = '-' := by
  rcases h with h | ⟨s, hs⟩
  · exact .inl h.not_cons
  · exact .inr (List.cons.inj hs).1

/-! ### Bare identifiers -/

theorem isWordChar_of_runFrom (h : (runFrom taken l).2 = []) : ∀ c ∈ l, isWordChar c = true := by
  fun_induction runFrom taken l with
  | case1 => cases h
  | case2 taken c l _ hc ih => exact List.forall_mem_cons.mpr ⟨hc, ih h⟩
  | case3 => cases h
  | case4 => exact fun c hc => absurd hc List.not_mem_nil

/-- A run up to the end of a text ends there in any text that goes on with something else. -/
theorem runFrom_append_of_stops (hrest : Stops rest) (h : (runFrom taken l).2 = []) :
    runFrom taken (l ++ rest) = (taken.reverse ++ l, rest) := by
  fun_induction runFrom taken l with
  | case1 => cases h
  | case2 taken c l hl hc ih =>
    rw [List.cons_append, runFrom, if_pos hc, ih h, List.reverse_cons, List.append_assoc]
    · rfl
    · rintro t rfl heq
      rcases l with _ | ⟨d, l⟩
      · rw [List.nil_append] at heq
        rw [heq] at hrest
        exact absurd hrest.not_cons (by decide)
      · obtain ⟨rfl, rfl⟩ := List.cons.inj heq
        exact hl _ rfl rfl
  | case3 => cases h
  | case4 taken =>
    rw [List.nil_append, List.append_nil]
    rcases hrest with hends | ⟨s, rfl⟩
    · rcases rest with _ | ⟨d, rest⟩
      · rfl
      · have hd := hends.not_cons
        rw [runFrom]
        · exact if_neg (Bool.eq_false_iff.mp hd)
        · rintro t rfl
          exact absurd hd (by decide)
    · rw [runFrom]

theorem runFrom_of_isBare (h : isBare s = true) :
    s.toList ≠ [] ∧ (runFrom [] s.toList).2 = [] := by
  unfold isBare bareId at h
  split at h
  · cases h
  · dsimp only at h
    split at h
    · cases h
    · next hword =>
      refine ⟨fun hnil => hword ?_, ?_⟩
      · rw [hnil]
        rfl
      · rcases hrun : (runFrom [] s.toList).2 with _ | ⟨c, t⟩
        · rfl
        · rw [hrun] at h
          cases h

theorem isWordChar_of_isBare (h : isBare s = true) : ∀ c ∈ s.toList, isWordChar c = true :=
  isWordChar_of_runFrom (runFrom_of_isBare h).2

theorem bareId_append (h : isBare s = true) (hrest : Stops rest) :
    bareId (s.toList ++ rest) = .read s rest := by
  obtain ⟨hne, hrun⟩ := runFrom_of_isBare h
  have happend := runFrom_append_of_stops hrest hrun
  rw [bareId, happend]
  · dsimp only
    rw [if_neg]
    · rw [List.reverse_nil, List.nil_append, String.ofList_toList]
    · simpa using hne
  · intro t heq
    rw [heq] at happend
    obtain ⟨hl, -⟩ := Prod.mk.inj happend
    exact hne hl.symm

/-- A run and what follows it make up the text. -/
theorem runFrom_split (taken l : List Char) :
    (runFrom taken l).1 ++ (runFrom taken l).2 = taken.reverse ++ l := by
  fun_induction runFrom taken l with
  | case2 taken c l _ _ ih => rw [ih, List.reverse_cons, List.append_assoc]; rfl
  | case1 | case3 | case4 => rfl

/-- A bare identifier stands at the start of the text. -/
theorem bareId_split (h : bareId l = .read s rest) : s.toList ≠ [] ∧ l = s.toList ++ rest := by
  unfold bareId at h
  split at h
  · cases h
    exact ⟨by decide, rfl⟩
  · have hsplit := runFrom_split [] l
    dsimp only at h
    split at h
    · cases h
    · next hword =>
      cases h
      rw [String.toList_ofList]
      exact ⟨by simpa using hword, hsplit.symm⟩

theorem bareId_shortens (h : bareId l = .read s rest) : rest.length < l.length := by
  obtain ⟨hne, rfl⟩ := bareId_split h
  have hpos := List.length_pos_iff.mpr hne
  rw [List.length_append]
  omega

/-! ### Spellings -/

theorem quotedId_append (h : l.all isQuotable = true) (rest : List Char) :
    quotedId ('\x22' :: (l ++ '\x22' :: rest)) = .read (String.ofList l) rest := by
  have hall := List.all_eq_true.mp h
  have hdrop : (l ++ '\x22' :: rest).dropWhile isQuotable = '\x22' :: rest := by
    rw [List.dropWhile_append_of_pos hall]
    rfl
  have htake : (l ++ '\x22' :: rest).takeWhile isQuotable = l := by
    rw [List.takeWhile_append_of_pos hall]
    exact List.append_nil l
  rw [quotedId, hdrop]
  exact congrArg (fun l => Outcome.read (String.ofList l) rest) htake

theorem written?_cases (h : written? s = some w) :
    (w = s ∧ isBare s = true ∧ isKeyword s = false) ∨
    w.toList = '\x22' :: (s.toList ++ ['\x22']) ∧ s.toList.all isQuotable = true := by
  unfold written? at h
  split at h
  · next hbare =>
    cases h
    rw [Bool.and_eq_true, Bool.not_eq_true'] at hbare
    exact .inl ⟨rfl, hbare⟩
  · split at h
    · next hall =>
      cases h
      refine .inr ⟨?_, hall⟩
      rw [String.toList_append, String.toList_append]
      rfl
    · cases h

/-- A quoted identifier stands at the start of the text. -/
theorem quotedId_split (h : quotedId l = .read s rest) :
    l = '\x22' :: (s.toList ++ '\x22' :: rest) ∧ s.toList.all isQuotable = true := by
  unfold quotedId at h
  split at h
  · next t =>
    split at h
    · next r heq =>
      cases h
      rw [String.toList_ofList, ← heq, List.takeWhile_append_dropWhile]
      exact ⟨rfl, List.all_takeWhile⟩
    · cases h
  · cases h

theorem quotedId_shortens (h : quotedId l = .read s rest) : rest.length < l.length := by
  obtain ⟨rfl, -⟩ := quotedId_split h
  rw [List.length_cons, List.length_append, List.length_cons]
  omega

/-- An identifier takes a character at least. -/
theorem identifier_shortens (h : identifier l = .read s rest) : rest.length < l.length := by
  unfold identifier at h
  split at h
  · exact quotedId_shortens h
  · exact bareId_shortens h

/-- A bare name reads back. -/
theorem identifier_bare (h : isBare s = true) (hrest : Stops rest) :
    identifier (s.toList ++ rest) = .read s rest := by
  rw [identifier, bareId_append h hrest]
  intro t heq
  obtain ⟨hne, -⟩ := runFrom_of_isBare h
  rcases hl : s.toList with _ | ⟨c, l⟩
  · exact hne hl
  · rw [hl] at heq
    obtain ⟨rfl, -⟩ := List.cons.inj heq
    have hc := isWordChar_of_isBare h '\x22' (hl ▸ List.mem_cons_self)
    exact absurd hc (by decide)

/-- A name in quotes reads back. -/
theorem identifier_quoted (h : s.toList.all isQuotable = true) (rest : List Char) :
    identifier ('\x22' :: (s.toList ++ ['\x22']) ++ rest) = .read s rest := by
  rw [List.cons_append, List.append_assoc]
  refine (quotedId_append h rest).trans ?_
  rw [String.ofList_toList]

/-- No identifier begins with any other character. -/
theorem identifier_of_not (hc : isWordChar c = false) (hquote : c ≠ '\x22') (rest : List Char) :
    identifier (c :: rest) = .miss .identifier (c :: rest) := by
  have hdash : ∀ t : List Char, c = '-' → rest = '>' :: t → False := by
    rintro t rfl
    cases hc
  have hrun : runFrom [] (c :: rest) = ([], c :: rest) := by
    rw [runFrom]
    · exact if_neg (Bool.eq_false_iff.mp hc)
    · exact hdash
  rw [identifier, bareId, hrun]
  · rfl
  · intro t heq
    exact hdash t (List.cons.inj heq).1 (List.cons.inj heq).2
  · intro t heq
    exact hquote (List.cons.inj heq).1

/-- The spelling of a name reads back. -/
theorem identifier_written (h : written? s = some w) (hrest : Stops rest) :
    identifier (w.toList ++ rest) = .read s rest := by
  rcases written?_cases h with ⟨rfl, hbare, -⟩ | ⟨hw, hall⟩
  · exact identifier_bare hbare hrest
  · rw [hw]
    exact identifier_quoted hall rest

/-! ### Blanks before a name -/

theorem blank_cons (hslash : ∀ d ∈ l.head?, Apart c d) (hhash : c ≠ '#') (hspace : isSpace c = false) :
    blank (c :: l) = .read () (c :: l) := by
  rw [blank, blankFrom, if_neg hhash, if_neg (Bool.eq_false_iff.mp hspace)]
  · rintro t rfl rfl
    exact (hslash '/' rfl rfl).1 rfl
  · rintro t rfl rfl
    exact (hslash '*' rfl rfl).2 rfl

/-- There is no blank before most characters. -/
theorem blank_of_not (h : opensBlank c = false) (l : List Char) : blank (c :: l) = .read () (c :: l) := by
  simp only [opensBlank, Bool.or_eq_false_iff, decide_eq_false_iff_not] at h
  exact blank_cons (fun _ _ hslash => absurd hslash h.1.1) h.1.2 h.2

theorem ne_of_isWordChar {d : Char} (hc : isWordChar c = true) (hd : isWordChar d = false) :
    c ≠ d := by
  rintro rfl
  cases hc.symm.trans hd

theorem opensComment_eq_false : opensComment (c :: l) = false ↔ ∀ d ∈ l.head?, Apart c d := by
  unfold opensComment
  split
  · next heq =>
    obtain ⟨rfl, rfl⟩ := List.cons.inj heq
    simp [Apart]
  · next heq =>
    obtain ⟨rfl, rfl⟩ := List.cons.inj heq
    simp [Apart]
  · next hslash hstar =>
    refine iff_of_true rfl fun d hd hc => ?_
    obtain ⟨t, rfl⟩ := List.head?_eq_some_iff.mp hd
    refine ⟨?_, ?_⟩ <;> rintro rfl
    · exact hslash t (hc ▸ rfl)
    · exact hstar t (hc ▸ rfl)

theorem opensComment_append_eq_false (h : opensComment (l ++ rest) = false) : opensComment l = false := by
  rcases l with _ | ⟨c, l⟩
  · rfl
  · refine opensComment_eq_false.mpr fun d hd => opensComment_eq_false.mp h d ?_
    obtain ⟨t, rfl⟩ := List.head?_eq_some_iff.mp hd
    rfl

/-- Blanks are skipped up to where no comment opens, unless a comment does not end. -/
theorem blank_stops (l : List Char) : (∃ e place, blank l = .fault e place) ∨
    ∃ r, blank l = .read () r ∧ opensComment r = false := by
  unfold blank
  fun_induction blankFrom .outside l with
  | case1 s ih | case2 s ih | case3 s _ _ ih | case4 c s _ _ _ _ ih | case7 c s _ ih | case8 c s _ ih
  | case10 _ s ih | case11 body c s _ ih => exact ih
  | case5 c s hslash hstar =>
    refine .inr ⟨c :: s, rfl, ?_⟩
    unfold opensComment
    split
    · next heq => exact absurd heq (by simpa using hslash _)
    · next heq => exact absurd heq (by simpa using hstar _)
    · rfl
  | case6 | case9 => exact .inr ⟨[], rfl, rfl⟩
  | case12 body => exact .inl ⟨_, _, rfl⟩

/-- There is no blank before a word that opens no comment. -/
theorem blank_words (hne : l ≠ []) (hwords : ∀ c ∈ l, isWordChar c = true)
    (hopen : opensComment l = false) (hrest : Stops rest) :
    blank (l ++ rest) = .read () (l ++ rest) := by
  rcases l with _ | ⟨c, l⟩
  · exact absurd rfl hne
  · have hc := hwords c List.mem_cons_self
    refine blank_cons (fun d hd => ?_) (ne_of_isWordChar hc (by decide)) ?_
    · rcases l with _ | ⟨d', l⟩
      · intro _
        rcases rest with _ | ⟨d', rest⟩
        · cases hd
        cases hd
        rcases hrest.not_cons with hd | rfl
        · exact ⟨fun h => (ne_of_isWordChar (by decide) hd h.symm).elim,
            fun h => (ne_of_isWordChar (by decide) hd h.symm).elim⟩
        · decide
      · cases hd
        exact opensComment_eq_false.mp hopen _ rfl
    · unfold isSpace
      simp [ne_of_isWordChar hc (d := ' ') (by decide), ne_of_isWordChar hc (d := '\t') (by decide),
        ne_of_isWordChar hc (d := '\n') (by decide), ne_of_isWordChar hc (d := '\r') (by decide)]

/-- A legible bare name opens no comment, nor does what is left of it behind a keyword. -/
theorem Legible.clear (hs : Legible s) (h : isBare s = true) :
    opensComment s.toList = false ∧ ∀ word ∈ keywords, ∀ more,
      afterWord? word.toList s.toList = some more → opensComment more = false := by
  rw [Legible, isHidden, h, Bool.true_and, Bool.or_eq_false_iff] at hs
  refine ⟨hs.1, fun word hword more hmore => ?_⟩
  have hnone := List.any_eq_false.mp hs.2 word hword
  rw [hmore] at hnone
  exact Bool.eq_false_iff.mpr hnone

theorem Legible.shown (hs : Legible s) : Shown s :=
  fun h _ => (hs.clear h).1

theorem opensBlock_of_opensComment (h : opensComment l = false) : opensBlock l = false := by
  unfold opensBlock
  split
  · cases h
  · rfl

theorem Legible.leading (hs : Legible s) : Leading s := by
  refine ⟨hs.shown, ?_⟩
  rw [isBlocked, Bool.and_eq_false_iff, or_iff_not_imp_left, Bool.not_eq_false]
  refine fun hbare => List.any_eq_false.mpr fun word hword => ?_
  rcases hmore : afterWord? word.toList s.toList with _ | more
  · exact nofun
  · exact Bool.eq_false_iff.mp (opensBlock_of_opensComment ((hs.clear hbare).2 word hword more hmore))

theorem blank_bare (h : isBare s = true) (hs : opensComment s.toList = false) (hrest : Stops rest) :
    blank (s.toList ++ rest) = .read () (s.toList ++ rest) :=
  blank_words (runFrom_of_isBare h).1 (isWordChar_of_isBare h) hs hrest

theorem blank_quote (rest : List Char) : blank ('\x22' :: rest) = .read () ('\x22' :: rest) :=
  blank_of_not (by decide) rest

theorem blank_written (h : written? s = some w) (hs : Shown s) (hrest : Ends rest) :
    blank (w.toList ++ rest) = .read () (w.toList ++ rest) := by
  rcases written?_cases h with ⟨rfl, hbare, hkey⟩ | ⟨hw, -⟩
  · exact blank_bare hbare (hs hbare hkey) hrest.stops
  · rw [hw]
    exact blank_quote _

/-! ### Keywords -/

theorem isWordChar_of_toLower (h : c.toLower.isLower = true) : isWordChar c = true := by
  have halpha : c.isAlpha = true := by
    refine (Bool.or_eq_true _ _).mpr ?_
    unfold Char.toLower at h
    split at h
    · next hupper => exact .inl (decide_eq_true hupper)
    · exact .inr h
  have halphanum : c.isAlphanum = true := (Bool.or_eq_true _ _).mpr (.inl halpha)
  simp [isWordChar, isIdChar, halphanum]

/-- No letter goes on where a bare identifier stops. -/
theorem Stops.not_isLower (h : Stops rest) : ∀ c ∈ rest.head?, c.toLower.isLower = false := by
  intro c hc
  obtain ⟨t, rfl⟩ := List.head?_eq_some_iff.mp hc
  rcases h.not_cons with hword | rfl
  · exact Bool.eq_false_iff.mpr fun hlower =>
      Bool.eq_false_iff.mp hword (isWordChar_of_toLower hlower)
  · rfl

/-- A keyword at the start of a text is there before any letter that does not belong to it. -/
theorem afterWord?_append {word r : List Char} (hword : ∀ c ∈ word, c.isLower = true)
    (hrest : ∀ c ∈ rest.head?, c.toLower.isLower = false) (h : afterWord? word (l ++ rest) = some r) :
    ∃ more, r = more ++ rest ∧ afterWord? word l = some more ∧ more <:+ l ∧
      l.map Char.toLower = word ++ more.map Char.toLower := by
  induction word generalizing l with
  | nil =>
    cases h
    exact ⟨l, rfl, rfl, List.suffix_refl l, rfl⟩
  | cons k word ih =>
    obtain ⟨hk, hword⟩ := List.forall_mem_cons.mp hword
    rcases l with _ | ⟨c, l⟩
    · rcases rest with _ | ⟨c, rest⟩
      · cases h
      · rw [List.nil_append, afterWord?] at h
        split at h
        · next hc => exact absurd (hc ▸ hk) (Bool.eq_false_iff.mp (hrest c rfl))
        · cases h
    · rw [List.cons_append, afterWord?] at h
      split at h
      · next hc =>
        obtain ⟨more, hr, hafter, hmore, hmap⟩ := ih hword h
        refine ⟨more, hr, ?_, hmore.trans (List.suffix_cons c l), ?_⟩
        · rw [afterWord?, if_pos hc, hafter]
        · rw [List.map_cons, hc, hmap, List.cons_append]
      · cases h

theorem afterWord?_suffix {word r : List Char} (h : afterWord? word l = some r) : r <:+ l := by
  induction word generalizing l with
  | nil =>
    cases h
    exact List.suffix_refl _
  | cons k word ih =>
    rcases l with _ | ⟨c, l⟩
    · cases h
    · rw [afterWord?] at h
      split at h
      · exact (ih h).trans (List.suffix_cons c l)
      · cases h

theorem exists_of_keyword? {scope : Scope} {r : List Char} (h : keyword? l = some (scope, r)) :
    ∃ word ∈ keywords, afterWord? word.toList l = some r := by
  unfold keyword? at h
  obtain ⟨⟨word, scope'⟩, hmem, h⟩ := List.exists_of_findSome?_eq_some h
  refine ⟨word, ?_, ?_⟩
  · have hmap : keywords = [("particle", Scope.particle), ("decay", Scope.decay)].map Prod.fst := rfl
    rw [hmap]
    exact List.mem_map_of_mem hmem
  · dsimp only at h
    split at h
    · next c t heq =>
      split at h
      · cases h
      · cases h
        exact heq
    · next heq =>
      cases h
      exact heq
    · cases h

theorem opensComment_of_isChain (h : l.IsChain Apart) : opensComment l = false := by
  rcases l with _ | ⟨c, l⟩
  · rfl
  · refine opensComment_eq_false.mpr fun d hd => ?_
    obtain ⟨t, rfl⟩ := List.head?_eq_some_iff.mp hd
    exact (List.isChain_cons_cons.mp h).1

/-- What opens no comment anywhere can be seen. -/
theorem Commentless.legible (h : Commentless s) : Legible s := by
  rw [Legible, isHidden, Bool.and_eq_false_iff, Bool.or_eq_false_iff]
  refine .inr ⟨opensComment_of_isChain h, List.any_eq_false.mpr fun word _ => ?_⟩
  rcases hmore : afterWord? word.toList s.toList with _ | more
  · exact nofun
  · exact Bool.eq_false_iff.mp (opensComment_of_isChain (h.suffix (afterWord?_suffix hmore)))

theorem isLower_of_mem_keywords {word : String} (h : word ∈ keywords) :
    ∀ c ∈ word.toList, c.isLower = true := by
  have hall : (keywords.all fun word => word.toList.all Char.isLower) = true := by decide
  exact List.all_eq_true.mp (List.all_eq_true.mp hall word h)

theorem paramList_of_ne {room : Nat} (h : c ≠ '[') (l : List Char) :
    paramList room (c :: l) = .miss (.character '[') (c :: l) := by
  unfold paramList
  split
  · next heq => exact absurd (List.cons.inj heq).1 h
  · next heq => exact absurd (List.cons.inj heq).1 h
  · rfl

/-! ### Names with a tail -/

theorem isBare_of_runFrom (hne : s.toList ≠ []) (h : (runFrom [] s.toList).2 = []) :
    isBare s = true := by
  have hsplit := runFrom_split [] s.toList
  rw [h, List.append_nil, List.reverse_nil, List.nil_append] at hsplit
  unfold isBare bareId
  split
  · next heq =>
    rw [heq, runFrom] at h
    cases h
  · dsimp only
    rw [h, hsplit, List.isEmpty_eq_false_iff.mpr hne]
    rfl

/-- A run that takes a text takes the start of it. -/
theorem runFrom_of_append (h : (runFrom taken (l ++ rest)).2 = []) : (runFrom taken l).2 = [] := by
  fun_induction runFrom taken l with
  | case1 taken l =>
    rw [List.cons_append, List.cons_append, runFrom] at h
    cases h
  | case2 taken c l hl hc ih =>
    refine ih ?_
    rw [List.cons_append, runFrom, if_pos hc] at h
    · exact h
    · rintro t rfl heq
      rw [heq, runFrom] at h
      cases h
  | case3 taken c l hl hc =>
    rw [List.cons_append, runFrom, if_neg hc] at h
    · cases h
    · rintro t rfl heq
      exact hc rfl
  | case4 => rfl

theorem opensComment_append (l rest : List Char) :
    opensComment (l ++ '_' :: rest) = opensComment l := by
  rcases l with _ | ⟨c, _ | ⟨d, l⟩⟩
  · rfl
  · have hone : opensComment [c] = false := opensComment_eq_false.mpr fun d hd => by cases hd
    have htwo : opensComment (c :: '_' :: rest) = false := by
      refine opensComment_eq_false.mpr ?_
      rintro _ ⟨⟩ _
      exact ⟨by decide, by decide⟩
    exact htwo.trans hone.symm
  · unfold opensComment
    simp only [List.cons_append]
    split <;> simp_all

theorem opensBlock_append (l rest : List Char) :
    opensBlock (l ++ '_' :: rest) = opensBlock l := by
  rcases l with _ | ⟨c, _ | ⟨d, l⟩⟩
  · rfl
  · unfold opensBlock
    split <;> simp_all
  · unfold opensBlock
    simp only [List.cons_append]
    split <;> simp_all

/-- No comment opens with a letter. -/
theorem opensComment_of_isKeyword (h : isKeyword s = true) : opensComment s.toList = false := by
  obtain ⟨word, hword, h⟩ := List.any_eq_true.mp h
  refine Bool.eq_false_iff.mpr fun hopen => ?_
  have hslash : '/' ∈ s.toList := by
    unfold opensComment at hopen
    split at hopen
    · next heq => exact heq ▸ List.mem_cons_self
    · next heq => exact heq ▸ List.mem_cons_self
    · cases hopen
  have hmem : '/'.toLower ∈ word.toList := of_decide_eq_true h ▸ List.mem_map_of_mem hslash
  cases isLower_of_mem_keywords hword _ hmem

/-- A name that is seen at the start of a line is so with an underscore and more behind it. -/
theorem Leading.append (hs : Leading s) {t : String} (ht : t.toList = '_' :: rest) :
    Leading (s ++ t) := by
  have hlist : (s ++ t).toList = s.toList ++ '_' :: rest := by rw [String.toList_append, ht]
  -- The name is bare or empty where the longer one is bare.
  have hbare : isBare (s ++ t) = true → s.toList = [] ∨ isBare s = true := by
    intro hbare
    refine or_iff_not_imp_left.mpr fun hne => ?_
    have hrun := (runFrom_of_isBare hbare).2
    rw [hlist] at hrun
    exact isBare_of_runFrom hne (runFrom_of_append hrun)
  constructor
  · intro h _
    rw [hlist, opensComment_append]
    rcases hbare h with hnil | hbare
    · rw [hnil]
      rfl
    · rcases hkey : isKeyword s
      · exact hs.1 hbare hkey
      · exact opensComment_of_isKeyword hkey
  · rw [isBlocked, Bool.and_eq_false_iff, or_iff_not_imp_left, Bool.not_eq_false, hlist]
    refine fun h => List.any_eq_false.mpr fun word hword => ?_
    rcases hafter : afterWord? word.toList (s.toList ++ '_' :: rest) with _ | r
    · exact nofun
    obtain ⟨more, rfl, hmore, -⟩ := afterWord?_append (isLower_of_mem_keywords hword)
      (by rintro _ ⟨⟩; decide) hafter
    rw [Option.any_some, opensBlock_append]
    rcases hbare h with hnil | hbare
    · rw [hnil] at hmore
      rw [List.suffix_nil.mp (afterWord?_suffix hmore)]
      exact nofun
    · have hblocked := hs.2
      rw [isBlocked, hbare, Bool.true_and] at hblocked
      have hnone := List.any_eq_false.mp hblocked word hword
      rwa [hmore] at hnone

/-- A keyword in a name that is none does not come to the end of it. -/
theorem ne_nil_of_afterWord? (hkey : isKeyword s = false) {word : String} (hword : word ∈ keywords)
    {more : List Char} (h : afterWord? word.toList s.toList = some more) : more ≠ [] := by
  rintro rfl
  rw [← List.append_nil s.toList] at h
  have hends : ∀ c ∈ ([] : List Char).head?, c.toLower.isLower = false := nofun
  obtain ⟨more, hmore, -, -, hmap⟩ := afterWord?_append (isLower_of_mem_keywords hword) hends h
  rw [List.append_nil] at hmore
  subst hmore
  rw [List.map_nil, List.append_nil] at hmap
  exact Bool.eq_false_iff.mp hkey (List.any_eq_true.mpr ⟨word, hword, decide_eq_true hmap⟩)

/-- No list stands where a word does that opens no comment. -/
theorem unlisted_words (hne : l ≠ []) (hwords : ∀ c ∈ l, isWordChar c = true)
    (hopen : opensComment l = false) (hrest : Stops rest) : Unlisted (l ++ rest) := by
  refine ⟨_, blank_words hne hwords hopen hrest, ?_⟩
  rcases l with _ | ⟨c, l⟩
  · exact absurd rfl hne
  · intro hc
    exact ne_of_isWordChar (hwords c List.mem_cons_self) (by decide) (Option.some.inj hc)

/-- A legible name is seen before any text that ends it. -/
theorem Legible.shownBefore (hs : Legible s) (hrest : Stops rest) : ShownBefore s rest := by
  refine fun hbare hkey => ⟨(hs.clear hbare).1, fun word hword more hmore => ?_⟩
  have hwords : ∀ d ∈ more, isWordChar d = true := fun d hd =>
    isWordChar_of_isBare hbare d ((afterWord?_suffix hmore).subset hd)
  exact unlisted_words (ne_nil_of_afterWord? hkey hword hmore) hwords
    ((hs.clear hbare).2 word hword more hmore) hrest

/-! ### Lines -/

theorem Unbroken.append {t : String} (hs : Unbroken s) (ht : Unbroken t) : Unbroken (s ++ t) := by
  unfold Unbroken
  rw [String.toList_append]
  exact List.forall_mem_append.mpr ⟨hs, ht⟩

theorem Unbroken.intercalate {texts : List String} (hs : Unbroken s) (h : ∀ t ∈ texts, Unbroken t) :
    Unbroken (s.intercalate texts) := by
  induction texts with
  | nil => exact nofun
  | cons t texts ih =>
    obtain ⟨ht, hrest⟩ := List.forall_mem_cons.mp h
    cases texts with
    | nil => rwa [String.intercalate_singleton]
    | cons t' texts =>
      rw [String.intercalate_cons_cons]
      exact (ht.append hs).append (ih hrest)

theorem ne_break_of_isWordChar (h : isWordChar c = true) : c ≠ '\n' ∧ c ≠ '\r' :=
  ⟨ne_of_isWordChar h (by decide), ne_of_isWordChar h (by decide)⟩

theorem unbroken_written (h : written? s = some w) : Unbroken w := by
  rcases written?_cases h with ⟨rfl, hbare, -⟩ | ⟨hw, hall⟩
  · exact fun c hc => ne_break_of_isWordChar (isWordChar_of_isBare hbare c hc)
  · have hs : ∀ c ∈ s.toList, c ≠ '\n' ∧ c ≠ '\r' := fun c hc => by
      have hquotable := List.all_eq_true.mp hall c hc
      simp only [isQuotable, Bool.and_eq_true, bne_iff_ne] at hquotable
      exact ⟨hquotable.1.2, hquotable.2⟩
    rw [Unbroken, hw]
    exact List.forall_mem_cons.mpr ⟨by decide, List.forall_mem_append.mpr
      ⟨hs, List.forall_mem_singleton.mpr (by decide)⟩⟩

/-- A comment that ends with its line is skipped together with the line. -/
theorem blank_comment (h : ∀ c ∈ l, c ≠ '\n' ∧ c ≠ '\r') :
    blank ('/' :: '/' :: (l ++ '\n' :: rest)) = blank rest := by
  have hline : blankFrom .line (l ++ '\n' :: rest) = blankFrom .outside rest := by
    induction l with
    | nil => rfl
    | cons c l ih =>
      obtain ⟨⟨hn, hr⟩, hl⟩ := List.forall_mem_cons.mp h
      rw [List.cons_append, blankFrom, if_neg (by simp [hn, hr]), ih hl]
  exact hline

/-- A comment behind a keyword ends with the line. -/
theorem Leading.shownBefore (hs : Leading s) {line : List Char}
    (hends : Stops (line ++ '\n' :: rest)) (hline : ∀ c ∈ line, c ≠ '\n' ∧ c ≠ '\r')
    (hrest : Unlisted rest) : ShownBefore s (line ++ '\n' :: rest) := by
  refine fun hbare hkey => ⟨hs.1 hbare hkey, fun word hword more hmore => ?_⟩
  have hwords : ∀ d ∈ more, isWordChar d = true := fun d hd =>
    isWordChar_of_isBare hbare d ((afterWord?_suffix hmore).subset hd)
  rcases hopen : opensComment more
  · exact unlisted_words (ne_nil_of_afterWord? hkey hword hmore) hwords hopen hends
  have hblock : opensBlock more = false := by
    have hblocked := hs.2
    rw [isBlocked, hbare, Bool.true_and] at hblocked
    have hnone := List.any_eq_false.mp hblocked word hword
    rw [hmore] at hnone
    exact Bool.eq_false_iff.mpr hnone
  unfold opensComment at hopen
  split at hopen
  · next _ more =>
    have hmore : ∀ c ∈ more ++ line, c ≠ '\n' ∧ c ≠ '\r' := List.forall_mem_append.mpr
      ⟨fun c hc => ne_break_of_isWordChar
        (hwords c (List.mem_cons_of_mem _ (List.mem_cons_of_mem _ hc))), hline⟩
    obtain ⟨r, hr, hhead⟩ := hrest
    have hskip : blank _ = blank rest := blank_comment hmore
    rw [List.append_assoc] at hskip
    exact ⟨r, hskip.trans hr, hhead⟩
  · cases hblock
  · cases hopen

/-- A statement that opens with a bare name is no default. -/
theorem statement_bare (hbare : isBare s = true) (hkey : isKeyword s = false) (hs : ShownBefore s rest)
    (hrest : Stops rest) : statement (s.toList ++ rest) = named (s.toList ++ rest) := by
  unfold statement
  rcases hk : keyword? (s.toList ++ rest) with _ | ⟨scope, r⟩
  · rfl
  · obtain ⟨word, hword, hafter⟩ := exists_of_keyword? hk
    obtain ⟨more, rfl, hmore, -⟩ :=
      afterWord?_append (isLower_of_mem_keywords hword) hrest.not_isLower hafter
    obtain ⟨r, hblank, hhead⟩ := (hs hbare hkey).2 word hword more hmore
    obtain ⟨e, place, hmiss⟩ : ∃ e place, paramList maxListDepth r = .miss e place := by
      rcases r with _ | ⟨c, r⟩
      · exact ⟨_, _, rfl⟩
      · exact ⟨_, _, paramList_of_ne (fun hc => hhead (congrArg some hc)) r⟩
    dsimp only
    rw [hblank]
    simp only [Outcome.bind, hmiss]

/-- A statement that opens with a quote is no default. -/
theorem statement_quote (rest : List Char) :
    statement ('\x22' :: rest) = named ('\x22' :: rest) := by
  have hkey : keyword? ('\x22' :: rest) = none := rfl
  rw [statement, hkey]

/-- A statement that opens with the spelling of a name is no default. -/
theorem statement_written (h : written? s = some w) (hs : ShownBefore s rest) (hrest : Ends rest) :
    statement (w.toList ++ rest) = named (w.toList ++ rest) := by
  rcases written?_cases h with ⟨rfl, hbare, hkey⟩ | ⟨hw, -⟩
  · exact statement_bare hbare hkey hs hrest.stops
  · rw [hw]
    exact statement_quote _

end DecayForest.Grammar
