import DecayForest.Proofs.Forest.Loops
import DecayForest.Proofs.Grammar.Bounds
import Mathlib.Data.List.Induction
/-!
# Where statements and faults stand

`Document.read` keeps count of the place while it goes from statement to statement, and stops after as many
statements as the source has characters. Here the reading of a document is a loop without any bound
(`Document.step`), which finds every place anew, by lengths in bytes. It has only `Position.locate?` for
that, which answers for suffixes of the source and where the lengths fit; on any other question the loop
would be stuck. It comes to an end all the same, as each statement takes a character at least, and it ends
with what is read (`Document.read_halts`).

What the loop can do in one round (`Document.Moves`) then tells where the statements and the fault of a
source stand (`Document.read_places`).
-/

namespace DecayForest

open Grammar
open Forest (Runs Halts)

namespace Position

/-- Places are in the order of the text: line by line, and from left to right within a line. -/
instance : LT Position where
  lt p q := p.line < q.line ∨ p.line = q.line ∧ p.column < q.column

/-- The place of a suffix of a text: its line counts the line breaks before the suffix, and its column the
characters behind the last of these. -/
def IsStart (p : Position) (text rest : List Char) : Prop :=
  ∃ before, text = before ++ rest ∧ p.line = before.count '\n' + 1 ∧
    p.column = (before.reverse.takeWhile (· ≠ '\n')).length + 1

/-- What `locate` finds, but only for a suffix of `source`, and only where nothing has to stand in for the
difference of the lengths: neither the start of the source for a negative one, nor its end for one that
splits a character. -/
def locate? (source rest : List Char) : Option Position :=
  if rest <:+ source ∧ bytes rest ≤ bytes source then
    (charsIn? 0 (bytes source - bytes rest) source).map fun n => after (source.take n)
  else none

variable {p q r : Position} {text s rest : List Char}

theorem lt_iff : p < q ↔ p.line < q.line ∨ p.line = q.line ∧ p.column < q.column :=
  Iff.rfl

theorem lt_trans (hpq : p < q) (hqr : q < r) : p < r := by
  rw [lt_iff] at *
  omega

theorem lt_advance (p : Position) (c : Char) : p < p.advance c := by
  rw [lt_iff, advance]
  split
  · exact .inl (Nat.lt_succ_self _)
  · exact .inr ⟨rfl, Nat.lt_succ_self _⟩

theorem lt_foldl_advance (p : Position) (hs : s ≠ []) : p < s.foldl advance p := by
  induction s generalizing p with
  | nil => exact absurd rfl hs
  | cons c s ih =>
    rw [List.foldl_cons]
    by_cases h : s = []
    · rw [h]
      exact lt_advance p c
    · exact lt_trans (lt_advance p c) (ih _ h)

/-- Going through a text character by character counts its line breaks and its last line. -/
theorem after_eq (s : List Char) :
    after s = ⟨s.count '\n' + 1, (s.reverse.takeWhile (· ≠ '\n')).length + 1⟩ := by
  induction s using List.reverseRecOn with
  | nil => rfl
  | append_singleton s c ih =>
    have hsnoc : after (s ++ [c]) = (after s).advance c := List.foldl_concat ..
    rw [hsnoc, ih, advance]
    by_cases h : c = '\n' <;> simp [h]

/-- The place that is kept count of is the place that is found by lengths. -/
theorem past_locate (hs : s <:+ text) (hrest : rest <:+ s) :
    (locate text s).past s rest = locate text rest := by
  obtain ⟨before, rfl⟩ := hs
  obtain ⟨between, rfl⟩ := hrest
  have hlength : (between ++ rest).length - rest.length = between.length := by simp
  rw [locate_append, ← List.append_assoc, locate_append, past, hlength, List.take_left, after, after,
    List.foldl_append]

theorem isStart_locate (h : rest <:+ text) : (locate text rest).IsStart text rest := by
  obtain ⟨before, rfl⟩ := h
  rw [locate_append, after_eq]
  exact ⟨before, rfl, rfl, rfl⟩

/-- What comes later in a text has a later place. -/
theorem locate_lt (hs : s <:+ text) (hrest : rest <:+ s) (hlt : rest.length < s.length) :
    locate text s < locate text rest := by
  rw [← past_locate hs hrest]
  apply lt_foldl_advance
  intro h
  have := congrArg List.length h
  simp only [List.length_take, List.length_nil] at this
  omega

theorem locate?_of_suffix (h : rest <:+ text) : locate? text rest = some (locate text rest) := by
  obtain ⟨before, rfl⟩ := h
  have hle : bytes rest ≤ bytes (before ++ rest) := by
    rw [bytes_append]
    omega
  rw [locate?, if_pos ⟨List.suffix_append _ _, hle⟩, charsIn?_bytes_sub, locate_append]
  simp

theorem locate?_eq_some (h : locate? text rest = some p) : rest <:+ text ∧ p = locate text rest := by
  have hsuffix : rest <:+ text := by
    by_contra hnot
    rw [locate?, if_neg fun hand => hnot hand.1] at h
    cases h
  exact ⟨hsuffix, Option.some.inj (h.symm.trans (locate?_of_suffix hsuffix))⟩

end Position

namespace Grammar

variable {s r : List Char} {scope : Scope} {st : Statement}

/-- Nothing is left to skip behind what has been skipped. -/
theorem blank_idem (h : blank s = .read () r) : blank r = .read () r := by
  unfold blank at h
  generalize Gap.outside = g at h
  fun_induction blankFrom g s with
  | case1 s ih | case2 s ih | case3 s _ _ ih | case4 c s _ _ _ _ ih | case7 c s _ ih | case8 c s _ ih
  | case10 _ s ih | case11 body c s _ ih => exact ih h
  | case5 c s hslash hstar hhash hspace =>
    cases h
    rw [blank, blankFrom, if_neg hhash, if_neg hspace]
    · exact hslash
    · exact hstar
  | case6 | case9 =>
    cases h
    rfl
  | case12 => cases h

theorem length_afterWord? {word : List Char} (h : afterWord? word s = some r) :
    s.length = word.length + r.length := by
  induction word generalizing s with
  | nil =>
    cases h
    exact (Nat.zero_add _).symm
  | cons w word ih =>
    rcases s with _ | ⟨c, s⟩
    · cases h
    · rw [afterWord?] at h
      split at h
      · rw [List.length_cons, List.length_cons, ih h]
        omega
      · cases h

theorem keyword?_shortens (h : keyword? s = some (scope, r)) : r.length < s.length := by
  obtain ⟨word, hword, hafter⟩ := exists_of_keyword? h
  have hpos : ∀ word ∈ keywords, 0 < word.toList.length := by decide
  have := hpos word hword
  rw [length_afterWord? hafter]
  omega

theorem named_shortens (h : named s = .read st r) : r.length < s.length := by
  unfold named at h
  split at h
  · next name rest hname =>
    exact Nat.lt_of_le_of_lt ((namedFrom_within name rest).suffix h).length_le (identifier_shortens hname)
  · cases h
  · cases h
  · cases h

/-- Each statement takes a character at least. -/
theorem statement_shortens (h : statement s = .read st r) : r.length < s.length := by
  unfold statement at h
  split at h
  · exact named_shortens h
  · next scope rest hkey =>
    split at h
    · next ps t hlist =>
      cases h
      have hwithin := (blank_within rest).bind fun _ s => paramList_within maxListDepth s
      exact Nat.lt_of_le_of_lt (hwithin.suffix hlist).length_le (keyword?_shortens hkey)
    · cases h
    · exact named_shortens h

end Grammar

namespace Document

/-! ### The loop -/

/-- Where the reading of a document stands. -/
inductive Stage where
  /-- Nothing has been read yet. -/
  | opening (text : List Char)
  /-- The statements `taken` have been read, and another one is to be read off `s`. -/
  | ahead (taken : List (Located Statement)) (s : List Char)
  /-- The last of the statements `taken` has just been read, and `rest` follows it. -/
  | behind (taken : List (Located Statement)) (rest : List Char)
  /-- Nothing is read any more. -/
  | ended (result : Except SyntaxError (List (Located Statement)))

namespace Stage

/-- The statements that have been read. -/
def taken : Stage → List (Located Statement)
  | ahead taken _ | behind taken _ | ended (.ok taken) => taken
  | opening _ | ended (.error _) => []

/-- The text that is still to be read. -/
def remaining : Stage → List Char
  | opening s | ahead _ s | behind _ s => s
  | ended _ => []

end Stage

variable {α : Type} {text s r : List Char} {taken : List (Located Statement)} {st : Located Statement}
  {e : SyntaxError} {t u : Stage} {o : Outcome α} {next : α → List Char → Option Stage}

/-- Goes on behind what was read, or ends with an error, if there is a place for it. -/
def proceed (text : List Char) (o : Outcome α) (next : α → List Char → Option Stage) : Option Stage :=
  match o with
  | .read a rest => next a rest
  | .miss expected place | .fault expected place =>
    (Position.locate? text place).map fun here => .ended (.error ⟨here, expected, excerpt place⟩)

/-- One round of the loop. It gets stuck where there is no place for a statement or an error. -/
def step (text : List Char) : Stage → Option Stage
  | .opening s => proceed text (blank s) fun _ s => some (.ahead [] s)
  | .ahead taken s =>
    (Position.locate? text s).bind fun here =>
    proceed text (statement s) fun st rest => some (.behind (taken ++ [⟨here, st⟩]) rest)
  | .behind taken s =>
    proceed text (blank s) fun _ s =>
    if s.isEmpty then some (.ended (.ok taken)) else
    proceed text (required ';' s) fun _ s =>
    proceed text (blank s) fun _ s =>
    if s.isEmpty then some (.ended (.ok taken)) else some (.ahead taken s)
  | .ended _ => none

/-- The next statement stands behind the last one. -/
theorem separated_suffix {s₁ s₂ s₃ s₄ : List Char} (hblank : blank s₁ = .read () s₂)
    (hsemicolon : required ';' s₂ = .read () s₃) (hblank' : blank s₃ = .read () s₄) : s₄ <:+ s₁ := by
  have hbefore := (blank_within s₁).suffix hblank
  have hbehind := (blank_within s₃).suffix hblank'
  exact (hbehind.trans ((required_within ';' s₂).suffix hsemicolon)).trans hbefore

/-! ### The end of the loop -/

/-- A round gets somewhere, and the loop goes on from there to the end with a result. -/
def Leads (text : List Char) (t? : Option Stage)
    (result : Except SyntaxError (List (Located Statement))) : Prop :=
  ∃ t, t? = some t ∧ Halts (step text) t (.ended result)

variable {result : Except SyntaxError (List (Located Statement))}

theorem leads_ended (text : List Char) (result : Except SyntaxError (List (Located Statement))) :
    Leads text (some (.ended result)) result :=
  ⟨_, rfl, .refl, rfl⟩

theorem Leads.halts (h : Leads text (step text t) result) : Halts (step text) t (.ended result) := by
  obtain ⟨u, hu, hruns, hend⟩ := h
  exact ⟨hruns.head hu, hend⟩

/-- The loop ends with the error where the reader does, and goes on where the reader does. -/
theorem leads_proceed {following : α × List Char → Except SyntaxError (List (Located Statement))}
    (ho : o.Within text) (hnext : ∀ a rest, rest <:+ text → o = .read a rest →
      Leads text (next a rest) (following (a, rest))) :
    Leads text (proceed text o next) (settle text o >>= following) := by
  cases o with
  | read a rest => exact hnext a rest ho rfl
  | miss expected place | fault expected place =>
    rw [proceed, Position.locate?_of_suffix ho]
    exact leads_ended text _

/-- From each statement on, the loop comes to an end with what the bounded reader reads, as the bound is
not used up. -/
theorem statementsFrom_halts {bound : List Char} (hs : s <:+ text) (hbound : s.length ≤ bound.length)
    (taken : List (Located Statement)) :
    Halts (step text) (.ahead taken.reverse s)
      (.ended (statementsFrom text bound taken (Position.locate text s) s)) := by
  induction bound generalizing s taken with
  | nil =>
    -- Nothing is left of the text either, so the loop misses a statement just as the reader does.
    obtain rfl := List.eq_nil_of_length_eq_zero (Nat.le_zero.mp hbound)
    have hplace := Position.locate?_of_suffix hs
    have hstep : step text (.ahead taken.reverse []) =
        some (.ended (.error (.within text [] .statement))) := by
      rw [step, hplace]
      show (Position.locate? text []).map _ = _
      rw [hplace]
      rfl
    exact ⟨.head hstep .refl, rfl⟩
  | cons c bound ih =>
    have hplace := Position.locate?_of_suffix hs
    apply Leads.halts
    rw [step, hplace, statementsFrom]
    refine leads_proceed ((statement_within s).trans hs) fun first s₁ hs₁ hfirst => ?_
    refine ⟨_, rfl, Leads.halts ?_⟩
    rw [step, ← List.reverse_cons]
    refine leads_proceed ((blank_within s₁).trans hs₁) fun _ s₂ hs₂ hblank => ?_
    dsimp only
    split
    · exact leads_ended text _
    refine leads_proceed ((required_within ';' s₂).trans hs₂) fun _ s₃ hs₃ hsemicolon => ?_
    refine leads_proceed ((blank_within s₃).trans hs₃) fun _ s₄ hs₄ hblank' => ?_
    dsimp only
    split
    · exact leads_ended text _
    have hlater := separated_suffix hblank hsemicolon hblank'
    have hlength : s₄.length ≤ bound.length := by
      have hlt := statement_shortens hfirst
      have hle := hlater.length_le
      rw [List.length_cons] at hbound
      omega
    rw [Position.past_locate hs (hlater.trans ((statement_within s).suffix hfirst))]
    exact ⟨_, rfl, ih hs₄ hlength _⟩

/-- The loop comes to an end with what is read, and never asks for the place of anything else than a suffix
of the source. -/
theorem read_halts (source : String) :
    Halts (step source.toList) (.opening source.toList) (.ended (read source)) := by
  apply Leads.halts
  rw [step]
  refine leads_proceed (blank_within _) fun _ s hs _ => ?_
  have hplace : Position.past ⟨1, 1⟩ source.toList s = Position.locate source.toList s := by
    have hstart : Position.locate source.toList source.toList = ⟨1, 1⟩ := Position.locate_append [] _
    rw [← hstart, Position.past_locate (List.suffix_refl _) hs]
  dsimp only
  rw [hplace]
  exact ⟨_, rfl, statementsFrom_halts hs (Nat.le_refl _) []⟩

/-! ### What a round does -/

/-- What the loop does in one round. -/
inductive Moves (text : List Char) : Stage → Stage → Prop
  /-- The first statement stands behind the first blanks. -/
  | opens {s r : List Char} : blank s = .read () r → Moves text (.opening s) (.ahead [] r)
  /-- A statement is read right where the loop stands, and is given that place. -/
  | reads {taken : List (Located Statement)} {s r : List Char} {st : Statement} :
    statement s = .read st r →
      Moves text (.ahead taken s) (.behind (taken ++ [⟨Position.locate text s, st⟩]) r)
  /-- Another statement stands behind the blanks and the semicolon that follow the last one. -/
  | parts (taken : List (Located Statement)) {s r : List Char} :
    r <:+ s → blank r = .read () r → Moves text (.behind taken s) (.ahead taken r)
  /-- No other statement follows. -/
  | ends (taken : List (Located Statement)) (s : List Char) :
    Moves text (.behind taken s) (.ended (.ok taken))
  /-- The fault stands in the text that is still to be read. -/
  | fails {t : Stage} {place : List Char} (expected : Expected) :
    place <:+ t.remaining → Moves text t (.ended (.error (.within text place expected)))

theorem moves_of_proceed (h : proceed text o next = some u) (ho : o.Within t.remaining)
    (hnext : ∀ a rest, o = .read a rest → next a rest = some u → Moves text t u) : Moves text t u := by
  cases o with
  | read a rest => exact hnext a rest rfl h
  | miss expected place | fault expected place =>
    obtain ⟨here, hhere, rfl⟩ := Option.map_eq_some_iff.mp h
    obtain ⟨-, rfl⟩ := Position.locate?_eq_some hhere
    exact .fails expected ho

theorem moves_of_step (h : step text t = some u) : Moves text t u := by
  cases t with
  | opening s =>
    refine moves_of_proceed h (blank_within s) fun _ r hblank hu => ?_
    cases hu
    exact .opens hblank
  | ahead taken s =>
    obtain ⟨here, hhere, h⟩ := Option.bind_eq_some_iff.mp h
    obtain ⟨-, rfl⟩ := Position.locate?_eq_some hhere
    refine moves_of_proceed h (statement_within s) fun st r hread hu => ?_
    cases hu
    exact .reads hread
  | behind taken s₁ =>
    refine moves_of_proceed h (blank_within s₁) fun _ s₂ hblank h => ?_
    have hs₂ := (blank_within s₁).suffix hblank
    split at h
    · cases h
      exact .ends taken s₁
    refine moves_of_proceed h ((required_within ';' s₂).trans hs₂) fun _ s₃ hsemicolon h => ?_
    have hs₃ := ((required_within ';' s₂).suffix hsemicolon).trans hs₂
    refine moves_of_proceed h ((blank_within s₃).trans hs₃) fun _ s₄ hblank' h => ?_
    split at h
    · cases h
      exact .ends taken s₁
    · cases h
      exact .parts taken (separated_suffix hblank hsemicolon hblank') (blank_idem hblank')
  | ended result => cases h

/-- The loop goes forward in the text. -/
theorem Moves.remaining_suffix (h : Moves text t u) : u.remaining <:+ t.remaining := by
  cases h with
  | opens hblank => exact (blank_within _).suffix hblank
  | reads hread => exact (statement_within _).suffix hread
  | parts _ hr _ => exact hr
  | ends | fails => exact List.nil_suffix

/-! ### What a run does -/

theorem remaining_suffix_of_runs (h : Runs (step text) t u) : u.remaining <:+ t.remaining := by
  induction h with
  | refl => exact List.suffix_refl _
  | tail _ hstep ih => exact (moves_of_step hstep).remaining_suffix.trans ih

/-- An error tells of a suffix of whatever was still to be read anywhere on the way. -/
theorem exists_place_of_halts (h : Halts (step text) t (.ended (.error e)))
    (ht : t ≠ .ended (.error e)) : ∃ expected place, e = .within text place expected ∧
      ∀ u, Runs (step text) t u → u ≠ .ended (.error e) → place <:+ u.remaining := by
  rcases h.1.cases_tail with heq | ⟨v, hruns, hstep⟩
  · exact absurd heq.symm ht
  cases moves_of_step hstep with
  | @fails _ place expected hplace =>
    refine ⟨expected, place, rfl, fun u hu hne => ?_⟩
    have hunique : Relator.RightUnique fun t u => step text t = some u :=
      fun _ _ _ h h' => Option.some.inj (h.symm.trans h')
    rcases Relation.ReflTransGen.total_of_right_unique hunique hu hruns with hrest | hrest
    · exact hplace.trans (remaining_suffix_of_runs hrest)
    -- The loop has come to an end one round after `v`, so it has been nowhere else since.
    rcases hrest.cases_head with rfl | ⟨w, hw, hrest⟩
    · exact hplace
    cases hstep.symm.trans hw
    rcases hrest.cases_head with rfl | ⟨_, hw, -⟩
    · exact absurd rfl hne
    · cases hw

/-- The loop comes to `s` when the statements `before` have been read, and a statement is read there, right
where its place says: there is nothing to skip. Then `r` follows. -/
structure ReadAt (text : List Char) (before : List (Located Statement)) (st : Located Statement)
    (s r : List Char) : Prop where
  reached : Runs (step text) (.opening text) (.ahead before s)
  unblank : blank s = .read () s
  statement : statement s = .read st.value r
  place : st.position = Position.locate text s

theorem ReadAt.suffix (h : ReadAt text taken st s r) : s <:+ text :=
  remaining_suffix_of_runs h.reached

theorem unblank_of_runs (h : Runs (step text) (.opening text) (.ahead taken s)) :
    blank s = .read () s := by
  rcases h.cases_tail with heq | ⟨u, -, hstep⟩
  · cases heq
  · cases moves_of_step hstep with
    | opens hblank => exact blank_idem hblank
    | parts _ _ hblank => exact hblank

/-- Each statement that has been read was read where its place says, and all that is still to be read stands
behind it. -/
theorem exists_readAt_of_runs (h : Runs (step text) (.opening text) t)
    {before after : List (Located Statement)} (hsplit : t.taken = before ++ st :: after) :
    ∃ s r, ReadAt text before st s r ∧ t.remaining <:+ r := by
  have hnil : ∀ after, ([] : List (Located Statement)) ≠ before ++ st :: after := by simp
  induction h generalizing after with
  | refl => exact absurd hsplit (hnil after)
  | @tail t u hruns hstep ih =>
    cases moves_of_step hstep with
    | opens | fails => exact absurd hsplit (hnil after)
    | ends taken s =>
      obtain ⟨s', r, hread, -⟩ := ih hsplit
      exact ⟨s', r, hread, List.nil_suffix⟩
    | parts taken hr =>
      obtain ⟨s', r, hread, hrest⟩ := ih hsplit
      exact ⟨s', r, hread, hr.trans hrest⟩
    | @reads taken s r first hfirst =>
      -- The statement in question has just been read, or is one of those before it.
      rcases List.eq_nil_or_concat after with rfl | ⟨after, last, rfl⟩
      · obtain ⟨rfl, heq⟩ := List.append_inj' hsplit rfl
        cases heq
        exact ⟨s, r, ⟨hruns, unblank_of_runs hruns, hfirst, rfl⟩, List.suffix_refl r⟩
      · rw [List.concat_eq_append, ← List.cons_append, ← List.append_assoc] at hsplit
        obtain ⟨htaken, -⟩ := List.append_inj' hsplit rfl
        obtain ⟨s', r', hread, hrest⟩ := ih htaken
        exact ⟨s', r', hread, ((statement_within s).suffix hfirst).trans hrest⟩

/-- The places of the statements that have been read are in the order of the text. -/
theorem ordered_of_runs (h : Runs (step text) (.opening text) t) :
    (t.taken.map Located.position).Pairwise (· < ·) := by
  induction h with
  | refl => exact .nil
  | @tail t u hruns hstep ih =>
    cases moves_of_step hstep with
    | opens | fails => exact .nil
    | ends | parts => exact ih
    | @reads taken s r first hfirst =>
      show ((taken ++ [_]).map Located.position).Pairwise (· < ·)
      rw [List.map_append, List.pairwise_append]
      refine ⟨ih, List.pairwise_singleton _ _, fun p hp q hq => ?_⟩
      obtain rfl := List.mem_singleton.mp hq
      obtain ⟨st, hst, rfl⟩ := List.mem_map.mp hp
      obtain ⟨before, after, hsplit⟩ := List.append_of_mem hst
      obtain ⟨s', r', hread, hrest⟩ := exists_readAt_of_runs hruns hsplit
      have hs' := (statement_within s').suffix hread.statement
      rw [hread.place]
      refine Position.locate_lt hread.suffix (hrest.trans hs') ?_
      exact Nat.lt_of_le_of_lt hrest.length_le (statement_shortens hread.statement)

/-! ### The places of a document -/

/-- The reading of a source comes to an end as each statement takes a character at least, and it finds all
places as those of suffixes of the source, where the lengths always fit. The places of the statements are in
the order of the text, and each is the line and the column of the first character of its statement. An error
has the line, the column and the excerpt of one suffix of the source, which stands behind all statements
that have been read before. -/
theorem read_places (source : String) :
    (Halts (step source.toList) (.opening source.toList) (.ended (read source)) ∧
      (∀ place, place <:+ source.toList →
        Position.locate? source.toList place = some (Position.locate source.toList place)) ∧
      ∀ s st r, statement s = .read st r → r <:+ s ∧ r.length < s.length) ∧
    (∀ located, read source = .ok located →
      (located.map Located.position).Pairwise (· < ·) ∧
      ∀ before st after, located = before ++ st :: after →
        ∃ c s r, ReadAt source.toList before st (c :: s) r ∧
          st.position.IsStart source.toList (c :: s)) ∧
    ∀ e, read source = .error e → ∃ place, e.position.IsStart source.toList place ∧
      e.found = excerpt place ∧
      ∀ taken r, Runs (step source.toList) (.opening source.toList) (.behind taken r) → place <:+ r := by
  have hend := read_halts source
  refine ⟨⟨hend, fun _ => Position.locate?_of_suffix, fun s st r h => ?_⟩, fun located h => ?_, fun e h => ?_⟩
  · exact ⟨(statement_within s).suffix h, statement_shortens h⟩
  · rw [h] at hend
    refine ⟨ordered_of_runs hend.1, fun before st after hsplit => ?_⟩
    obtain ⟨s, r, hread, -⟩ := exists_readAt_of_runs hend.1 hsplit
    have hlt := statement_shortens hread.statement
    obtain ⟨c, s, rfl⟩ := List.exists_cons_of_length_pos (Nat.zero_lt_of_lt hlt)
    refine ⟨c, s, r, hread, ?_⟩
    rw [hread.place]
    exact Position.isStart_locate hread.suffix
  · rw [h] at hend
    obtain ⟨expected, place, rfl, hplace⟩ := exists_place_of_halts hend nofun
    refine ⟨place, Position.isStart_locate (hplace _ .refl nofun), rfl, fun taken r hruns => ?_⟩
    exact hplace _ hruns nofun

/-- Three statements, the second one behind a comment of two lines. -/
def accented : String := "\x22é\x22;/*ß\n*/ \x22ü\x22;A"

/-- Three names, and no semicolon before the last. -/
def unparted : String := "\x22é\x22;A \x22ß\x22"

/-- Columns count characters, whatever their lengths in bytes are. -/
theorem read_places_accented :
    (Position.locate? accented.toList ['A'] = some (Position.locate accented.toList ['A']) ∧
      ∃ r, statement ['A'] = .read (.node "A" ∅) r ∧ r.length < 1) ∧
    (∃ located, read accented = .ok located ∧
      located.map Located.position = [⟨1, 1⟩, ⟨2, 4⟩, ⟨2, 8⟩] ∧
      (located.map Located.position).Pairwise (· < ·) ∧
      ∃ c s r, ReadAt accented.toList [⟨⟨1, 1⟩, .node "é" ∅⟩] ⟨⟨2, 4⟩, .node "ü" ∅⟩ (c :: s) r ∧
        (⟨2, 4⟩ : Position).IsStart accented.toList (c :: s)) ∧
    ∃ e place, read unparted = .error e ∧ e.position = ⟨1, 7⟩ ∧
      e.position.IsStart unparted.toList place ∧ e.found = excerpt place ∧
      place <:+ [' ', '\x22', 'ß', '\x22'] := by
  obtain ⟨⟨-, hsuffix, hshortens⟩, hplaces, -⟩ := read_places accented
  obtain ⟨-, -, herror⟩ := read_places unparted
  have hread : read accented =
      .ok [⟨⟨1, 1⟩, .node "é" ∅⟩, ⟨⟨2, 4⟩, .node "ü" ∅⟩, ⟨⟨2, 8⟩, .node "A" ∅⟩] := rfl
  obtain ⟨hordered, hstarts⟩ := hplaces _ hread
  have hfault : read unparted = .error ⟨⟨1, 7⟩, .character ';', "'\x22ß\x22'"⟩ := rfl
  obtain ⟨place, hstart, hfound, hbehind⟩ := herror _ hfault
  refine ⟨⟨hsuffix _ (by decide), [], rfl, (hshortens ['A'] _ [] rfl).2⟩,
    ⟨_, hread, rfl, hordered, hstarts [_] _ [_] rfl⟩, _, place, hfault, rfl, hstart, hfound, ?_⟩
  apply hbehind [⟨⟨1, 1⟩, .node "é" ∅⟩, ⟨⟨1, 5⟩, .node "A" ∅⟩]
  have hopening : Runs (step unparted.toList) (.opening unparted.toList)
      (.behind [⟨⟨1, 1⟩, .node "é" ∅⟩] (unparted.toList.drop 3)) :=
    .head (t := .ahead [] unparted.toList) rfl (.head rfl .refl)
  exact hopening.trans (.head (t := .ahead _ (unparted.toList.drop 4)) rfl (.head rfl .refl))

end Document

end DecayForest
