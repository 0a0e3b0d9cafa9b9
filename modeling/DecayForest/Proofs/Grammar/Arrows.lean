import DecayForest.Proofs.Grammar.Documents
import DecayForest.Proofs.Grammar.Layout
import Mathlib.Data.List.Flatten
/-!
# Arrows in lists

A bare identifier stops before an arrow, so it takes no part of one, unless the arrow is where the
identifier begins: then it is the dash, and what follows is a name that begins with `>`. In a list an
arrow is therefore not refused, it falls apart into two names (`arrow_falls_apart`).
-/

namespace DecayForest.Grammar

/-- No arrow stands in a text. -/
def Arrowless (s : List Char) : Prop :=
  s.IsChain fun c d => c = '-' → d ≠ '>'

instance (s : List Char) : Decidable (Arrowless s) := inferInstanceAs (Decidable (List.IsChain _ _))

/-- A piece of the text of a list: what is skipped, or a token. -/
inductive Lexeme where
  | gap (skipped : List Char)
  | token (t : Token)

namespace Lexeme

/-- The text of a lexeme. -/
def text : Lexeme → List Char
  | gap skipped => skipped
  | token t => t.text

/-- What is left of a lexeme outside of comments and quotes. A comment counts as a space. -/
def plain : Lexeme → List Char
  | gap _ => [' ']
  | token (.quoted _) => ['\x22', '\x22']
  | token t => t.text

/-- The name that a lexeme spells. -/
def name? : Lexeme → Option String
  | gap _ => none
  | token t => t.name?

end Lexeme

/-- A text is read as some lexemes, up to a rest of it. -/
inductive Lexed : List Lexeme → List Char → List Char → Prop
  | done (s : List Char) : Lexed [] s s
  | gap {skipped s t : List Char} {ls : List Lexeme} : skipped ≠ [] →
    blank (skipped ++ s) = .read () s → Lexed ls s t → Lexed (.gap skipped :: ls) (skipped ++ s) t
  | bare {name : String} {s t : List Char} {ls : List Lexeme} :
    bareId (name.toList ++ s) = .read name s → Lexed ls s t →
    Lexed (.token (.bare name) :: ls) (name.toList ++ s) t
  | quoted {name : String} {s t : List Char} {ls : List Lexeme} : name.toList.all isQuotable = true →
    Lexed ls s t → Lexed (.token (.quoted name) :: ls) ((Token.quoted name).text ++ s) t
  | sign {c : Char} {s t : List Char} {ls : List Lexeme} : c ∈ signs → Lexed ls s t →
    Lexed (.token (.sign c) :: ls) (c :: s) t

/-- Two lexemes are the halves of an arrow. -/
def Halves (l m : Lexeme) : Prop :=
  l = .token (.bare "-") ∧ ∃ name, m = .token (.bare name) ∧ name.toList.head? = some '>'

/-- Some lexemes hold both halves of an arrow, one right behind the other. -/
def Halved (ls : List Lexeme) : Prop :=
  ∃ before l m after, ls = before ++ l :: m :: after ∧ Halves l m

variable {l s t rest taken : List Char} {w name name' : String} {ls ms : List Lexeme} {c : Char}

/-! ### Arrows and identifiers -/

/-- A run comes to its end before an arrow, so that none is cut in two. -/
theorem arrowless_runFrom (h : Arrowless (taken.reverse ++ l.head?.toList)) :
    Arrowless ((runFrom taken l).1 ++ (runFrom taken l).2.head?.toList) := by
  fun_induction runFrom taken l with
  | case1 | case3 | case4 => exact h
  | case2 taken c l hl hc ih =>
    refine ih ?_
    rw [List.reverse_cons]
    refine List.isChain_append.mpr ⟨h, ?_, ?_⟩
    · cases l.head? with
      | none => exact .nil
      | some d => exact .singleton d
    · intro b hb d hd
      rw [List.getLast?_concat, Option.mem_some] at hb
      subst hb
      obtain ⟨r, rfl⟩ : ∃ r, l = d :: r := by
        cases l with
        | nil => cases hd
        | cons d' r => exact ⟨r, congrArg (· :: r) (Option.some.inj hd)⟩
      rintro rfl rfl
      exact hl r rfl rfl

theorem arrowless_bareId (h : bareId l = .read w rest) : Arrowless w.toList ∧
    (w.toList.getLast? = some '-' → rest.head? = some '>' → w = "-" ∧ ['-', '>'] <+: l) := by
  unfold bareId at h
  split at h
  · next r =>
    cases h
    exact ⟨by decide, fun _ _ => ⟨rfl, r, rfl⟩⟩
  · have hchain : Arrowless ((runFrom [] l).1 ++ (runFrom [] l).2.head?.toList) := by
      refine arrowless_runFrom ?_
      cases l with
      | nil => exact .nil
      | cons c => exact .singleton c
    dsimp only at h
    split at h
    · cases h
    · cases h
      rw [String.toList_ofList]
      refine ⟨hchain.left_of_append, fun hlast hhead => ?_⟩
      have hne := (List.isChain_append.mp hchain).2.2 '-' hlast '>' (by rw [hhead]; rfl) rfl
      exact absurd rfl hne

/-! ### Lexemes -/

namespace Lexed

theorem append (h : Lexed ls s t) (h' : Lexed ms t rest) : Lexed (ls ++ ms) s rest := by
  induction h with
  | done => exact h'
  | gap hne hblank _ ih => exact .gap hne hblank (ih h')
  | bare hread _ ih => exact .bare hread (ih h')
  | quoted hall _ ih => exact .quoted hall (ih h')
  | sign hc _ ih => exact .sign hc (ih h')

/-- The lexemes make up the text. -/
theorem text_eq (h : Lexed ls s t) : s = ls.flatMap Lexeme.text ++ t := by
  induction h with
  | done => rfl
  | gap _ _ _ ih | bare _ _ ih | quoted _ _ ih | sign _ _ ih =>
    rw [List.flatMap_cons, List.append_assoc, ← ih]
    rfl

/-- There is no arrow within a lexeme, outside of quotes and comments. -/
theorem arrowless (h : Lexed ls s t) : ∀ l ∈ ls, l.plain ≠ [] ∧ Arrowless l.plain := by
  induction h with
  | done => nofun
  | gap _ _ _ ih => exact List.forall_mem_cons.mpr ⟨⟨List.cons_ne_nil _ _, .singleton _⟩, ih⟩
  | @bare name _ _ _ hread _ ih =>
    exact List.forall_mem_cons.mpr ⟨⟨(bareId_split hread).1, (arrowless_bareId hread).1⟩, ih⟩
  | quoted _ _ ih =>
    have hquotes : Arrowless ['\x22', '\x22'] := by decide
    exact List.forall_mem_cons.mpr ⟨⟨List.cons_ne_nil _ _, hquotes⟩, ih⟩
  | sign _ _ ih => exact List.forall_mem_cons.mpr ⟨⟨List.cons_ne_nil _ _, .singleton _⟩, ih⟩

/-- Only a bare name begins with the head of an arrow. -/
theorem head_eq_gt (h : Lexed ls s t) {l : Lexeme} (hl : l ∈ ls.head?) (hhead : l.plain.head? = some '>') :
    s.head? = some '>' ∧ ∃ name, l = .token (.bare name) ∧ name.toList.head? = some '>' := by
  cases h with
  | done => cases hl
  | gap | quoted =>
    cases hl
    cases hhead
  | sign hc =>
    cases hl
    cases hhead
    exact absurd hc (by decide)
  | @bare name s _ _ =>
    cases hl
    refine ⟨?_, name, rfl, hhead⟩
    rw [List.head?_append, show name.toList.head? = some '>' from hhead, Option.some_or]

/-- Between two lexemes stands no arrow, unless they are the halves of one. -/
theorem isChain (h : Lexed ls s t) : ls.IsChain fun l m =>
    l.plain.getLast? = some '-' → m.plain.head? = some '>' → Halves l m := by
  induction h with
  | done => exact .nil
  | gap _ _ _ ih => exact List.isChain_cons.mpr ⟨fun _ _ hlast => (nomatch hlast), ih⟩
  | bare hread hls ih =>
    refine List.isChain_cons.mpr ⟨fun m hm hlast hhead => ?_, ih⟩
    obtain ⟨hs, hname⟩ := hls.head_eq_gt hm hhead
    obtain ⟨rfl, -⟩ := (arrowless_bareId hread).2 hlast hs
    exact ⟨rfl, hname⟩
  | quoted _ _ ih => exact List.isChain_cons.mpr ⟨fun _ _ hlast => (nomatch hlast), ih⟩
  | sign hc _ ih =>
    refine List.isChain_cons.mpr ⟨fun m _ hlast => ?_, ih⟩
    cases hlast
    exact absurd hc (by decide)

/-- An arrow that has been read outside of quotes and comments has been read in two halves. -/
theorem arrowless_iff (h : Lexed ls s t) : Arrowless (ls.flatMap Lexeme.plain) ↔
    ¬ Halved ls := by
  have hne : [] ∉ ls.map Lexeme.plain := fun hmem => by
    obtain ⟨l, hl, hnil⟩ := List.mem_map.mp hmem
    exact (h.arrowless l hl).1 hnil
  have hall : ∀ p ∈ ls.map Lexeme.plain, Arrowless p := fun p hp => by
    obtain ⟨l, hl, rfl⟩ := List.mem_map.mp hp
    exact (h.arrowless l hl).2
  rw [Arrowless, List.flatMap_def, List.isChain_flatten hne, List.isChain_map,
    List.isChain_iff_forall_rel_of_append_cons_cons]
  refine ⟨?_, fun hno => ⟨hall, fun l m before after hls => ?_⟩⟩
  · rintro ⟨-, hchain⟩ ⟨before, l, m, after, hls, rfl, name, rfl, hhead⟩
    exact hchain hls '-' rfl '>' hhead rfl rfl
  · rintro c hlast d hhead rfl rfl
    refine hno ⟨before, l, m, after, hls, ?_⟩
    exact List.isChain_iff_forall_rel_of_append_cons_cons.mp h.isChain hls hlast hhead

end Lexed

/-! ### Lists as lexemes -/

variable {α β : Type} {o : Outcome α} {next : α → List Char → Outcome β}
  {item : List Char → Outcome α} {inner : List Char → Outcome ParamList}

/-- What has been read was there as lexemes. -/
def Outcome.Lexes (s : List Char) (o : Outcome α) : Prop :=
  ∀ a r, o = .read a r → ∃ ls, Lexed ls s r

theorem Outcome.Lexes.bind (h : o.Lexes s) (hnext : ∀ a r, (next a r).Lexes r) : (o.bind next).Lexes s := by
  intro b r hread
  obtain ⟨a, q, ha, hb⟩ := Outcome.bind_eq_read.mp hread
  obtain ⟨ls, hls⟩ := h a q ha
  obtain ⟨ms, hms⟩ := hnext a q b r hb
  exact ⟨ls ++ ms, hls.append hms⟩

theorem Outcome.lexes_miss (expected : Expected) (place : List Char) :
    (Outcome.miss expected place : Outcome α).Lexes s := by
  rintro _ _ ⟨⟩

theorem Outcome.lexes_fault (expected : Expected) (place : List Char) :
    (Outcome.fault expected place : Outcome α).Lexes s := by
  rintro _ _ ⟨⟩

theorem Outcome.lexes_read (a : α) (s : List Char) : (Outcome.read a s).Lexes s := by
  intro _ _ hread
  cases hread
  exact ⟨[], .done s⟩

theorem Outcome.Lexes.map (h : o.Lexes s) (f : α → β) : (o.map f).Lexes s :=
  h.bind fun a r => lexes_read (f a) r

theorem Outcome.Lexes.optional (h : o.Lexes s) : (o.optional s).Lexes s := by
  cases o with
  | read a r =>
    obtain ⟨ls, hls⟩ := h a r rfl
    intro _ _ hread
    cases hread
    exact ⟨ls, hls⟩
  | miss => exact lexes_read none s
  | fault => exact lexes_fault _ _

theorem exists_lexed_blank (h : blank s = .read () t) :
    ∃ ls, Lexed ls s t ∧ ls.filterMap Lexeme.name? = [] := by
  obtain ⟨skipped, rfl⟩ := (blank_within s).suffix h
  rcases skipped with _ | ⟨c, skipped⟩
  · exact ⟨[], .done t, rfl⟩
  · exact ⟨[.gap (c :: skipped)], .gap (List.cons_ne_nil c skipped) h (.done t), rfl⟩

theorem exists_lexed_identifier (h : identifier s = .read name t) :
    ∃ l, Lexed [l] s t ∧ l.name? = some name := by
  unfold identifier at h
  split at h
  · obtain ⟨hs, hall⟩ := quotedId_split h
    have hlexed : Lexed [.token (.quoted name)] ('\x22' :: (name.toList ++ ['\x22']) ++ t) t :=
      .quoted hall (.done t)
    rw [List.cons_append, List.append_assoc, List.singleton_append, ← hs] at hlexed
    exact ⟨_, hlexed, rfl⟩
  · obtain ⟨-, rfl⟩ := bareId_split h
    exact ⟨_, .bare h (.done t), rfl⟩

theorem blank_lexes (s : List Char) : (blank s).Lexes s := by
  intro _ t h
  obtain ⟨ls, hls, -⟩ := exists_lexed_blank h
  exact ⟨ls, hls⟩

theorem identifier_lexes (s : List Char) : (identifier s).Lexes s := by
  intro _ t h
  obtain ⟨l, hl, -⟩ := exists_lexed_identifier h
  exact ⟨[l], hl⟩

theorem character_lexes (hc : c ∈ signs) (s : List Char) : (character c s).Lexes s := by
  intro _ t h
  cases s with
  | nil => cases h
  | cons d s =>
    rw [character] at h
    split at h
    · next hd =>
      cases h
      exact ⟨_, .sign (hd ▸ hc) (.done _)⟩
    · cases h

theorem required_lexes (hc : c ∈ signs) (s : List Char) : (required c s).Lexes s := by
  intro _ t h
  refine character_lexes hc s () t ?_
  cases s with
  | nil => cases h
  | cons d s =>
    rw [required] at h
    rw [character]
    split at h
    · next hd => rw [if_pos hd, h]
    · cases h

theorem value_lexes (h : ∀ s, (inner s).Lexes s) (s : List Char) : (value inner s).Lexes s := by
  unfold value
  split
  · exact (h _).map _
  · have hid := identifier_lexes s
    split
    · next heq =>
      intro _ _ hread
      cases hread
      exact hid _ _ heq
    · exact Outcome.lexes_fault _ _
    · exact Outcome.lexes_fault _ _
    · exact Outcome.lexes_fault _ _

theorem entry_lexes (h : ∀ s, (inner s).Lexes s) (s : List Char) : (entry inner s).Lexes s :=
  (blank_lexes s).bind fun _ s =>
  (identifier_lexes s).bind fun _ s =>
  ((((blank_lexes s).bind fun _ s => (character_lexes (by decide) s).bind fun _ s => blank_lexes s).bind
    fun _ s => value_lexes h s).optional).bind fun _ s =>
  (blank_lexes s).bind fun _ s =>
  (character_lexes (by decide) s).optional.map _

theorem manyFrom_lexes (h : ∀ s, (item s).Lexes s) (bound : List Char) (before : List α) (s : List Char) :
    (manyFrom item bound before s).Lexes s := by
  induction bound generalizing before s with
  | nil => exact Outcome.lexes_read _ s
  | cons c bound ih =>
    unfold manyFrom
    split
    · next heq =>
      intro as t hread
      obtain ⟨ls, hls⟩ := h s _ _ heq
      obtain ⟨ms, hms⟩ := ih _ _ _ _ hread
      exact ⟨ls ++ ms, hls.append hms⟩
    · exact Outcome.lexes_read _ s
    · exact Outcome.lexes_fault _ _

theorem paramList_lexes (room : Nat) (s : List Char) : (paramList room s).Lexes s := by
  induction room generalizing s with
  | zero =>
    unfold paramList
    split
    · exact Outcome.lexes_fault _ _
    · contradiction
    · exact Outcome.lexes_miss _ _
  | succ room ih =>
    unfold paramList
    split
    · contradiction
    · next s heq =>
      cases heq
      have hbody : ((many (entry (paramList room)) s).bind fun entries s => (blank s).bind fun _ s =>
          (required ']' s).map fun _ => ParamList.ofEntries entries).Lexes s :=
        (manyFrom_lexes (entry_lexes ih) s [] s).bind fun _ s =>
          (blank_lexes s).bind fun _ s => (required_lexes (by decide) s).map _
      intro ps t hread
      obtain ⟨ls, hls⟩ := hbody ps t hread
      exact ⟨_, .sign (by decide) hls⟩
    · exact Outcome.lexes_miss _ _

theorem exists_lexed_targets {bound : List Char} {before names : List String}
    (h : manyFrom target bound before s = .read names t) :
    ∃ ls, Lexed ls s t ∧ names = before.reverse ++ ls.filterMap Lexeme.name? := by
  induction bound generalizing before s with
  | nil =>
    cases h
    exact ⟨[], .done _, (List.append_nil _).symm⟩
  | cons c bound ih =>
    rw [manyFrom] at h
    split at h
    · next name r heq =>
      obtain ⟨_, q, hname, hgap⟩ := Outcome.bind_eq_read.mp heq
      obtain ⟨_, _, hblank, hread⟩ := Outcome.bind_eq_read.mp hgap
      cases hread
      obtain ⟨l, hl, hlname⟩ := exists_lexed_identifier hname
      obtain ⟨gap, hgap, hnone⟩ := exists_lexed_blank hblank
      obtain ⟨ls, hls, rfl⟩ := ih h
      refine ⟨[l] ++ (gap ++ ls), hl.append (hgap.append hls), ?_⟩
      rw [List.singleton_append, List.filterMap_cons_some hlname, List.filterMap_append, hnone,
        List.reverse_cons, List.append_assoc]
      rfl
    · cases h
      exact ⟨[], .done _, (List.append_nil _).symm⟩
    · cases h

/-! ### Decays with an arrow between their targets -/

theorem runFrom_snd (taken : List Char) : (runFrom taken l).2 = (runFrom [] l).2 := by
  have h : ∀ taken', (runFrom taken l).2 = (runFrom taken' l).2 := by
    fun_induction runFrom taken l with
    | case1 => exact fun taken' => by rw [runFrom]
    | case2 taken c l hl hc ih =>
      intro taken'
      rw [ih (c :: taken'), runFrom, if_pos hc]
      exact hl
    | case3 taken c l hl hc =>
      intro taken'
      rw [runFrom, if_neg hc]
      exact hl
    | case4 => exact fun taken' => rfl
  exact h []

theorem isBare_gt (h : isBare name = true) : isBare (">" ++ name) = true := by
  have hlist : (">" ++ name).toList = '>' :: name.toList := by
    rw [String.toList_append]
    rfl
  refine isBare_of_runFrom (hlist ▸ List.cons_ne_nil _ _) ?_
  rw [hlist, runFrom, if_pos (by decide), runFrom_snd, (runFrom_of_isBare h).2]
  exact fun _ h => absurd h (by decide)

theorem series_target {names : List String} (h : identifier s = .read name t) (hblank : blank t = .read () t)
    (hnames : Series target names t rest) : Series target (name :: names) s rest := by
  refine .next ?_ (identifier_shortens h) hnames
  simp only [target, h, Outcome.bind, hblank]
  rfl

/-- An arrow between two targets adds a name to them. -/
theorem series_arrow {b c : String} (hb : written? name = some b) (hc : written? name' = some c) :
    Series target (name :: "-" :: if c = name' then [">" ++ name'] else [">", name'])
      (b.toList ++ '-' :: '>' :: (c.toList ++ ['\x7d'])) ['\x7d'] := by
  have hclose : Series target [] ['\x7d'] ['\x7d'] := .stop rfl
  refine series_target (identifier_written hb (stops_arrow _)) (blank_of_not (by decide) _) ?_
  refine series_target rfl (blank_of_not (by decide) _) ?_
  rcases written?_cases hc with ⟨rfl, hbare, -⟩ | ⟨hw, hall⟩
  · have hgt := identifier_bare (isBare_gt hbare) (ends_of_not (c := '\x7d') (by decide) []).stops
    rw [String.toList_append] at hgt
    rw [if_pos rfl]
    exact series_target hgt (blank_of_not (by decide) []) hclose
  · have hne : c ≠ name' := by
      rintro rfl
      have hlength := congrArg List.length hw
      simp only [List.length_cons, List.length_append] at hlength
      omega
    have hgt : identifier ('>' :: ('\x22' :: (name'.toList ++ ['\x22']) ++ ['\x7d'])) =
      .read ">" ('\x22' :: (name'.toList ++ ['\x22']) ++ ['\x7d']) := rfl
    rw [if_neg hne, hw]
    refine series_target hgt (blank_of_not (by decide) _) ?_
    exact series_target (identifier_quoted hall _) (blank_of_not (by decide) []) hclose

/-- A decay with an arrow between its targets is read. -/
theorem read_arrow {source a b c : String} (ha : written? source = some a) (hsource : Legible source)
    (hb : written? name = some b) (hname : Legible name) (hc : written? name' = some c) :
    ∃ located, Document.read (a ++ " -> \x7b" ++ b ++ "->" ++ c ++ "\x7d") = .ok [located] ∧
      located.value =
        .edge source (name :: "-" :: if c = name' then [">" ++ name'] else [">", name']) ∅ := by
  have htext : (a ++ " -> \x7b" ++ b ++ "->" ++ c ++ "\x7d").toList = a.toList ++
      ' ' :: '-' :: '>' :: ' ' :: '\x7b' :: (b.toList ++ '-' :: '>' :: (c.toList ++ ['\x7d'])) := by
    simp only [String.toList_append, show " -> \x7b".toList = [' ', '-', '>', ' ', '\x7b'] from rfl,
      show "->".toList = ['-', '>'] from rfl, show "\x7d".toList = ['\x7d'] from rfl, List.append_assoc,
      List.cons_append, List.nil_append]
  have hends : ∀ s, Ends (' ' :: s) := ends_of_not (by decide)
  have hblank : blank (b.toList ++ '-' :: '>' :: (c.toList ++ ['\x7d'])) =
      .read () (b.toList ++ '-' :: '>' :: (c.toList ++ ['\x7d'])) := by
    rcases written?_cases hb with ⟨rfl, hbare, -⟩ | ⟨hw, -⟩
    · exact blank_bare hbare (hname.clear hbare).1 (stops_arrow _)
    · rw [hw]
      exact blank_quote _
  have hrest : ([] : List Char) = [] ∨ [] = [';'] := .inl rfl
  refine Document.read_single ?_ ?_ hrest
  · rw [htext]
    exact blank_written ha hsource.shown (hends _)
  · rw [htext, statement_written ha (hsource.shownBefore (hends _).stops) (hends _), named,
      identifier_written ha (hends _).stops]
    show ((blank (b.toList ++ '-' :: '>' :: (c.toList ++ ['\x7d']))).bind fun _ s =>
      (many target s).bind fun targets s =>
      (required '\x7d' s).bind fun _ s =>
      (someParams s).map fun params => Statement.edge source targets params) = _
    rw [hblank]
    simp only [Outcome.bind, many_of_series (series_arrow hb hc)]
    rfl

/-- An identifier takes no part of an arrow, unless an arrow is where it begins: then it is the dash. So
each arrow in a list, outside of quotes and comments, has been read as two names, and nothing else in a
list looks like an arrow. A decay with an arrow between its targets is read, whatever its names. -/
theorem arrow_falls_apart (text : String) :
    (∀ w rest, bareId text.toList = .read w rest ∨
        text.toList.head? ≠ some '\x22' ∧ identifier text.toList = .read w rest →
      Arrowless w.toList ∧
      (w.toList.getLast? = some '-' ∧ rest.head? = some '>' ↔ ['-', '>'] <+: text.toList) ∧
      (['-', '>'] <+: text.toList → w = "-")) ∧
    (∀ room ps rest, paramList room text.toList = .read ps rest →
      ∃ ls, Lexed ls text.toList rest ∧ text.toList = ls.flatMap Lexeme.text ++ rest ∧
        (Arrowless (ls.flatMap Lexeme.plain) ↔ ¬ Halved ls)) ∧
    (∀ names rest, many target text.toList = .read names rest →
      ∃ ls, Lexed ls text.toList rest ∧ text.toList = ls.flatMap Lexeme.text ++ rest ∧
        ls.filterMap Lexeme.name? = names ∧ (Arrowless (ls.flatMap Lexeme.plain) ↔ ¬ Halved ls)) ∧
    ∀ source a name b name' c, written? source = some a → Legible source → written? name = some b →
      Legible name → written? name' = some c → text = a ++ " -> \x7b" ++ b ++ "->" ++ c ++ "\x7d" →
      ∃ located, Document.read text = .ok [located] ∧
        located.value =
          .edge source (name :: "-" :: if c = name' then [">" ++ name'] else [">", name']) ∅ := by
  refine ⟨fun w rest hread => ?_, fun room ps rest hread => ?_, fun names rest hread => ?_, ?_⟩
  · have hbare : bareId text.toList = .read w rest := by
      rcases hread with h | ⟨hquote, h⟩
      · exact h
      · unfold identifier at h
        split at h
        · next heq => exact absurd (congrArg List.head? heq) hquote
        · exact h
    obtain ⟨hword, hsplit⟩ := arrowless_bareId hbare
    have hdash : ['-', '>'] <+: text.toList → w = "-" ∧ rest.head? = some '>' := by
      rintro ⟨r, hr⟩
      rw [← hr] at hbare
      cases hbare
      exact ⟨rfl, rfl⟩
    refine ⟨hword, ⟨fun ⟨hlast, hhead⟩ => (hsplit hlast hhead).2, fun harrow => ?_⟩,
      fun harrow => (hdash harrow).1⟩
    obtain ⟨rfl, hhead⟩ := hdash harrow
    exact ⟨rfl, hhead⟩
  · obtain ⟨ls, hls⟩ := paramList_lexes room _ ps rest hread
    exact ⟨ls, hls, hls.text_eq, hls.arrowless_iff⟩
  · obtain ⟨ls, hls, hnames⟩ := exists_lexed_targets hread
    exact ⟨ls, hls, hls.text_eq, hnames.symm, hls.arrowless_iff⟩
  · rintro source a name b name' c ha hsource hb hname hc rfl
    exact read_arrow ha hsource hb hname hc

/-- The arrow of `B->C` as a target is not refused: its dash is read as an identifier. -/
theorem arrow_begins_identifier :
    bareId ['-', '>', 'C', '\x7d'] = .read "-" ['>', 'C', '\x7d'] ∧
    ∃ located, Document.read "A -> \x7bB->C\x7d" = .ok [located] ∧
      located.value = .edge "A" ["B", "-", ">C"] ∅ :=
  ⟨rfl, _, rfl, rfl⟩

theorem arrow_falls_apart_quoted :
    (bareId "a-->b".toList = .read "a-" "->b".toList ∧
      ("a-".toList.getLast? = some '-' ∧ "->b".toList.head? = some '>' ↔
        ['-', '>'] <+: "a-->b".toList)) ∧
    (∃ ls, Lexed ls "[k=-> \x22->\x22/*->*/]".toList [] ∧
      "[k=-> \x22->\x22/*->*/]".toList = ls.flatMap Lexeme.text ++ [] ∧
      (Arrowless (ls.flatMap Lexeme.plain) ↔ ¬ Halved ls)) ∧
    (∃ ls, Lexed ls "a-->b\x7d".toList ['\x7d'] ∧
      "a-->b\x7d".toList = ls.flatMap Lexeme.text ++ ['\x7d'] ∧
      ls.filterMap Lexeme.name? = ["a-", "-", ">b"] ∧
      (Arrowless (ls.flatMap Lexeme.plain) ↔ ¬ Halved ls)) ∧
    ∃ located, Document.read "A -> \x7bB-->\x22c d\x22\x7d" = .ok [located] ∧
      located.value = .edge "A" ("B-" :: "-" ::
        if "\x22c d\x22" = "c d" then [">" ++ "c d"] else [">", "c d"]) ∅ := by
  have hread : bareId "a-->b".toList = .read "a-" "->b".toList := rfl
  exact ⟨⟨hread, ((arrow_falls_apart "a-->b").1 _ _ (.inl hread)).2.1⟩,
    (arrow_falls_apart "[k=-> \x22->\x22/*->*/]").2.1 2 _ _ rfl,
    (arrow_falls_apart "a-->b\x7d").2.2.1 _ _ rfl,
    (arrow_falls_apart _).2.2.2 "A" "A" "B-" "B-" "c d" "\x22c d\x22" rfl rfl rfl rfl rfl rfl⟩

end DecayForest.Grammar
