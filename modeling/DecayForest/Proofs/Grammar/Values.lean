import DecayForest.Group.Writing
import DecayForest.Proofs.Grammar.Spelling
import DecayForest.Proofs.Params
import Mathlib.Data.List.Forall2
/-!
# Values and lists as they are written

What `Writing.value` makes of a value reads back as that value, and so do lists (`value_written`,
`paramList_written`). The values are those that documents bring forth, set flags behind names, texts
and records in order, and all names and texts in them are seen where they stand. Plain values are the
ones in which no comment opens. How deep records are nested decides how much room the reader needs.
-/

namespace DecayForest

namespace Value

mutual

/-- A value that a document can bring forth, with no comment opening in its names and texts. -/
def Plain : Value → Prop
  | .flag on => on = true
  | .number _ => False
  | .text s => Grammar.Commentless s
  | .record es => Ascending es ∧ PlainEntries es

/-- All names and values of a list are plain. -/
def PlainEntries : List (String × Value) → Prop
  | [] => True
  | (key, v) :: es => Grammar.Commentless key ∧ v.Plain ∧ PlainEntries es

end

mutual

/-- A value of the kinds that a document can bring forth, with all names and texts in it of one
sort. -/
def Worded (sort : String → Prop) : Value → Prop
  | .flag on => on = true
  | .number _ => False
  | .text s => sort s
  | .record es => Ascending es ∧ WordedEntries sort es

/-- All names and values of a list are of one sort. -/
def WordedEntries (sort : String → Prop) : List (String × Value) → Prop
  | [] => True
  | (key, v) :: es => sort key ∧ v.Worded sort ∧ WordedEntries sort es

end

mutual

/-- The names and texts in a value. -/
def words : Value → List String
  | .text s => [s]
  | .record es => wordsIn es
  | .flag _ | .number _ => []

/-- The names and texts in a list. -/
def wordsIn : List (String × Value) → List String
  | [] => []
  | (key, v) :: es => key :: (v.words ++ wordsIn es)

end

mutual

/-- How many records stand inside one another. -/
def depth : Value → Nat
  | .record es => depthEntries es + 1
  | _ => 0

/-- How many records stand inside one another in a list. -/
def depthEntries : List (String × Value) → Nat
  | [] => 0
  | (_, v) :: es => max v.depth (depthEntries es)

end

end Value

/-- A list that is written so that it reads back: its entries are plain and not nested too deep. -/
structure ParamList.Plain (ps : ParamList) : Prop where
  entries : Value.PlainEntries ps.entries
  depth : Value.depthEntries ps.entries < Grammar.maxListDepth

/-- A list of the kind that a document can bring forth, with all names and texts in it of one sort. -/
structure ParamList.Worded (sort : String → Prop) (ps : ParamList) : Prop where
  entries : Value.WordedEntries sort ps.entries
  depth : Value.depthEntries ps.entries < Grammar.maxListDepth

namespace Value

variable {sort sort' : String → Prop}

mutual

theorem Worded.imp : ∀ (v : Value), v.Worded sort → (∀ w ∈ v.words, sort w → sort' w) →
    v.Worded sort'
  | .flag _, h, _ => h
  | .text s, h, himp => himp s (List.mem_singleton_self s) h
  | .record es, h, himp => ⟨h.1, WordedEntries.imp es h.2 himp⟩

theorem WordedEntries.imp : ∀ (es : List (String × Value)), WordedEntries sort es →
    (∀ w ∈ wordsIn es, sort w → sort' w) → WordedEntries sort' es
  | [], _, _ => trivial
  | (key, v) :: es, h, himp =>
    ⟨himp key List.mem_cons_self h.1,
      Worded.imp v h.2.1 fun w hw =>
        himp w (List.mem_cons_of_mem key (List.mem_append_left _ hw)),
      WordedEntries.imp es h.2.2 fun w hw =>
        himp w (List.mem_cons_of_mem key (List.mem_append_right _ hw))⟩

end

theorem wordedEntries_iff {es : List (String × Value)} :
    WordedEntries sort es ↔ ∀ e ∈ es, sort e.1 ∧ e.2.Worded sort := by
  induction es with
  | nil => exact iff_of_true trivial nofun
  | cons e es ih => rw [List.forall_mem_cons, ← ih, and_assoc]; rfl

theorem depthEntries_lt_iff {es : List (String × Value)} {n : Nat} (hn : 0 < n) :
    depthEntries es < n ↔ ∀ e ∈ es, e.2.depth < n := by
  induction es with
  | nil => exact iff_of_true hn nofun
  | cons e es ih => rw [List.forall_mem_cons, ← ih, ← Nat.max_lt]; rfl

mutual

theorem plain_iff : ∀ v : Value, v.Plain ↔ v.Worded Grammar.Commentless
  | .flag _ | .number _ | .text _ => Iff.rfl
  | .record es => and_congr_right fun _ => plainEntries_iff es

theorem plainEntries_iff : ∀ es : List (String × Value),
    PlainEntries es ↔ WordedEntries Grammar.Commentless es
  | [] => Iff.rfl
  | (_, v) :: es => and_congr_right fun _ => and_congr (plain_iff v) (plainEntries_iff es)

end

end Value

namespace ParamList

variable {sort sort' : String → Prop} {ps : ParamList}

theorem Worded.imp (h : ps.Worded sort)
    (himp : ∀ w ∈ Value.wordsIn ps.entries, sort w → sort' w) : ps.Worded sort' :=
  ⟨Value.WordedEntries.imp ps.entries h.entries himp, h.depth⟩

/-- What holds of a list hangs on its entries one by one. -/
theorem worded_iff : ps.Worded sort ↔
    ∀ e ∈ ps.entries, (sort e.1 ∧ e.2.Worded sort) ∧ e.2.depth < Grammar.maxListDepth := by
  have hroom : 0 < Grammar.maxListDepth := by decide
  rw [forall₂_and, ← Value.wordedEntries_iff, ← Value.depthEntries_lt_iff hroom]
  exact ⟨fun h => ⟨h.entries, h.depth⟩, fun ⟨hes, hdepth⟩ => ⟨hes, hdepth⟩⟩

theorem plain_iff : ps.Plain ↔ ps.Worded Grammar.Commentless :=
  ⟨fun h => ⟨(Value.plainEntries_iff ps.entries).mp h.entries, h.depth⟩,
    fun h => ⟨(Value.plainEntries_iff ps.entries).mpr h.entries, h.depth⟩⟩

end ParamList

namespace Grammar

variable {α : Type} {item : List Char → Outcome α} {as : List α} {s t rest : List Char}
  {room : Nat} {key w text : String} {v : Value} {es : List (String × Value)} {texts : List String}
  {inner : List Char → Outcome ParamList}

/-! ### Series of items -/

/-- Items stand one after the other from `s` to `t`, where none follows. -/
inductive Series (item : List Char → Outcome α) : List α → List Char → List Char → Prop
  | stop {s place : List Char} {e : Expected} : item s = .miss e place → Series item [] s s
  | next {a : α} {as : List α} {s s' t : List Char} :
    item s = .read a s' → s'.length < s.length → Series item as s' t → Series item (a :: as) s t

theorem manyFrom_of_series (h : Series item as s t) {bound : List Char}
    (hbound : s.length ≤ bound.length) (taken : List α) :
    manyFrom item bound taken s = .read (taken.reverse ++ as) t := by
  induction h generalizing bound taken with
  | stop hmiss =>
    rw [List.append_nil]
    cases bound with
    | nil => rfl
    | cons => rw [manyFrom, hmiss]
  | @next a as s s' t hread hlt _ ih =>
    cases bound with
    | nil => exact absurd (Nat.lt_of_lt_of_le hlt hbound) (Nat.not_lt_zero _)
    | cons b bound =>
      have hle : s'.length ≤ bound.length := Nat.le_of_lt_succ (Nat.lt_of_lt_of_le hlt hbound)
      rw [manyFrom, hread]
      refine (ih hle (a :: taken)).trans ?_
      rw [List.reverse_cons, List.append_assoc]
      rfl

theorem many_of_series (h : Series item as s t) : many item s = .read as t :=
  manyFrom_of_series h (Nat.le_refl _) []

/-! ### What is written -/

theorem name_eq_ok (h : Writing.name key = .ok w) : written? key = some w := by
  unfold Writing.name at h
  rcases hk : written? key with _ | spelling <;> rw [hk] at h <;> cases h
  rfl

theorem written_ne_nil (h : written? key = some w) : w.toList ≠ [] := by
  rcases written?_cases h with ⟨rfl, hbare, -⟩ | ⟨hw, -⟩
  · exact (runFrom_of_isBare hbare).1
  · rw [hw]
    exact List.cons_ne_nil _ _

/-- An entry is written as its name, or as its name and its value. -/
theorem entries_cons_eq_ok (h : Writing.entries ((key, v) :: es) = .ok texts) :
    ∃ k first others, written? key = some k ∧ Writing.entries es = .ok others ∧
      texts = first :: others ∧ (v = .flag true ∧ first = k ∨
        v ≠ .flag true ∧ ∃ w, Writing.value v = .ok w ∧ first = k ++ "=" ++ w) := by
  rw [Writing.entries] at h
  rcases hk : Writing.name key with e | k <;> rw [hk] at h
  · cases h
  · dsimp only [bind, Except.bind] at h
    split at h
    · rcases hes : Writing.entries es with e | others <;> rw [hes] at h <;> cases h
      exact ⟨k, k, others, name_eq_ok hk, rfl, rfl, .inl ⟨rfl, rfl⟩⟩
    · next hv =>
      rcases hw : Writing.value v with e | w <;> rw [hw] at h
      · cases h
      · rcases hes : Writing.entries es with e | others <;> rw [hes] at h <;> cases h
        exact ⟨k, _, others, name_eq_ok hk, rfl, rfl, .inr ⟨hv, w, rfl, rfl⟩⟩

theorem unbroken_bracketed {texts : List String} (h : ∀ t ∈ texts, Unbroken t) :
    Unbroken (Writing.bracketed texts) :=
  (Unbroken.append (by decide) (.intercalate (by decide) h)).append (by decide)

mutual

/-- What is written for a value goes on in its line. -/
theorem unbroken_value : ∀ (v : Value) {text : String}, Writing.value v = .ok text → Unbroken text
  | .flag _, _, h | .text _, _, h | .number _, _, h => unbroken_written (name_eq_ok h)
  | .record es, text, h => by
    rw [Writing.value] at h
    rcases hes : Writing.entries es with e | texts <;> rw [hes] at h <;> cases h
    exact unbroken_bracketed (unbroken_entries es hes)

theorem unbroken_entries : ∀ (es : List (String × Value)) {texts : List String},
    Writing.entries es = .ok texts → ∀ t ∈ texts, Unbroken t
  | [], _, h => by
    rw [Writing.entries] at h
    cases h
    exact nofun
  | (key, v) :: es, texts, h => by
    obtain ⟨k, first, others, hk, hothers, rfl, hfirst⟩ := entries_cons_eq_ok h
    refine List.forall_mem_cons.mpr ⟨?_, unbroken_entries es hothers⟩
    rcases hfirst with ⟨-, rfl⟩ | ⟨-, w, hw, rfl⟩
    · exact unbroken_written hk
    · exact ((unbroken_written hk).append (by decide)).append (unbroken_value v hw)

end

/-! ### Entries -/

/-- A text stands for an entry between other entries and at the end of a list. -/
def Entered (inner : List Char → Outcome ParamList) (e : String × Value) (text : String) : Prop :=
  text.toList ≠ [] ∧ ∀ lead, lead = [] ∨ lead = [' '] → ∀ rest,
    entry inner (lead ++ text.toList ++ ',' :: rest) = .read e rest ∧
    entry inner (lead ++ text.toList ++ ']' :: rest) = .read e (']' :: rest)

theorem blank_lead {lead : List Char} (hlead : lead = [] ∨ lead = [' '])
    (h : blank s = .read () s) : blank (lead ++ s) = .read () s := by
  rcases hlead with rfl | rfl
  · exact h
  · exact h

/-- An entry is read if its name is, and what follows the name. -/
theorem entered_of_value (hkey : written? key = some w) (hshown : Shown key) {after : String}
    (hafter : ∀ c rest, c = ',' ∨ c = ']' → Ends (after.toList ++ c :: rest) ∧
      ∃ v?, (((assigns (after.toList ++ c :: rest)).bind fun _ s => value inner s).optional
        (after.toList ++ c :: rest)) = .read v? (c :: rest) ∧ v?.getD .present = v) :
    Entered inner (key, v) (w ++ after) := by
  have hne := written_ne_nil hkey
  have hentry : ∀ lead, lead = [] ∨ lead = [' '] → ∀ c rest, c = ',' ∨ c = ']' →
      entry inner (lead ++ (w ++ after).toList ++ c :: rest) =
        ((character ',' (c :: rest)).optional (c :: rest)).map fun _ => (key, v) := by
    intro lead hlead c rest hc
    obtain ⟨hends, v?, hvalue, rfl⟩ := hafter c rest hc
    have hblank : blank (c :: rest) = .read () (c :: rest) := by
      rcases hc with rfl | rfl <;> exact blank_of_not (by decide) rest
    rw [String.toList_append, List.append_assoc, List.append_assoc, entry,
      blank_lead hlead (blank_written hkey hshown hends)]
    simp only [Outcome.bind, identifier_written hkey hends.stops]
    simp only [Outcome.bind] at hvalue
    rw [hvalue]
    simp only [hblank]
  refine ⟨fun h => ?_, fun lead hlead rest => ⟨?_, ?_⟩⟩
  · rw [String.toList_append] at h
    exact hne (List.append_eq_nil_iff.mp h).1
  · exact hentry lead hlead ',' rest (.inl rfl)
  · exact hentry lead hlead ']' rest (.inr rfl)

/-- Entries with commas between them are a series up to the closing bracket. -/
theorem series_entries (h : List.Forall₂ (Entered inner) es texts) {lead : List Char}
    (hlead : lead = [] ∨ lead = [' '] ∧ texts ≠ []) (rest : List Char) :
    Series (entry inner) es (lead ++ (", ".intercalate texts).toList ++ ']' :: rest)
      (']' :: rest) := by
  have hstop : Series (entry inner) [] (']' :: rest) (']' :: rest) := .stop rfl
  induction h generalizing lead with
  | nil =>
    rcases hlead with rfl | ⟨-, hne⟩
    · exact hstop
    · exact absurd rfl hne
  | @cons e text es texts he hes ih =>
    obtain ⟨hne, hread⟩ := he
    have hlead' : lead = [] ∨ lead = [' '] := hlead.imp_right And.left
    obtain ⟨hcomma, hclose⟩ := hread lead hlead' rest
    cases hes with
    | nil =>
      rw [String.intercalate_singleton]
      refine .next hclose ?_ hstop
      have hpos := List.length_pos_iff.mpr hne
      rw [List.length_append, List.length_append]
      omega
    | @cons e' text' es texts he' hes =>
      have hsplit : lead ++ (", ".intercalate (text :: text' :: texts)).toList ++ ']' :: rest =
          lead ++ text.toList ++
            ',' :: ([' '] ++ (", ".intercalate (text' :: texts)).toList ++ ']' :: rest) := by
        rw [String.intercalate_cons_cons, String.toList_append, String.toList_append,
          show ", ".toList = [',', ' '] from rfl]
        simp only [List.append_assoc, List.cons_append, List.nil_append]
      rw [hsplit]
      refine .next (hread lead hlead' _).1 ?_ (ih (.inr ⟨rfl, List.cons_ne_nil _ _⟩))
      simp only [List.length_append, List.length_cons]
      omega

/-! ### Values and lists -/

theorem ends_comma_or_close {c : Char} (hc : c = ',' ∨ c = ']') (rest : List Char) :
    Ends (c :: rest) := by
  rcases hc with rfl | rfl <;> exact ends_of_not (by decide) rest

theorem entered_flag (hkey : written? key = some w) (hshown : Shown key) :
    Entered inner (key, .flag true) w := by
  have h : Entered inner (key, .flag true) (w ++ "") := by
    refine entered_of_value hkey hshown fun c rest hc =>
      ⟨ends_comma_or_close hc rest, none, ?_, rfl⟩
    rcases hc with rfl | rfl <;> rfl
  rwa [String.append_empty] at h

theorem entered_value (hkey : written? key = some w) (hshown : Shown key)
    (hvalue : ∀ rest, Ends rest → value inner (text.toList ++ rest) = .read v rest ∧
      blank (text.toList ++ rest) = .read () (text.toList ++ rest)) :
    Entered inner (key, v) (w ++ "=" ++ text) := by
  rw [String.append_assoc]
  refine entered_of_value hkey hshown fun c rest hc => ?_
  obtain ⟨hread, hblank⟩ := hvalue (c :: rest) (ends_comma_or_close hc rest)
  rw [String.toList_append, show "=".toList = ['='] from rfl, List.append_assoc]
  refine ⟨ends_of_not (by decide) _, some v, ?_, rfl⟩
  have hassigns : assigns (['='] ++ (text.toList ++ c :: rest)) =
      .read () (text.toList ++ c :: rest) := by
    rw [assigns, List.singleton_append, blank_of_not (by decide)]
    exact hblank
  rw [hassigns]
  simp only [Outcome.bind, hread]
  rfl

/-- A list in brackets is read if its entries are. -/
theorem paramList_entered (h : List.Forall₂ (Entered (paramList room)) es texts)
    (rest : List Char) :
    paramList (room + 1) ((Writing.bracketed texts).toList ++ rest) =
      .read (ParamList.ofEntries es) rest := by
  have hsplit : (Writing.bracketed texts).toList ++ rest =
      '[' :: ([] ++ (", ".intercalate texts).toList ++ ']' :: rest) := by
    rw [Writing.bracketed, String.toList_append, String.toList_append,
      show "[".toList = ['['] from rfl, show "]".toList = [']'] from rfl]
    simp only [List.append_assoc, List.cons_append, List.nil_append]
  rw [hsplit, paramList, many_of_series (series_entries h (.inl rfl) rest)]
  rfl

theorem bracketed_toList (texts : List String) :
    ∃ t, (Writing.bracketed texts).toList = '[' :: t := by
  rw [Writing.bracketed, String.append_assoc, String.toList_append]
  exact ⟨_, rfl⟩

/-- The spelling of a text is read as that text. -/
theorem value_text (h : written? key = some w) (hrest : Ends rest) :
    value inner (w.toList ++ rest) = .read (.text key) rest := by
  have hread := identifier_written h hrest.stops
  unfold value
  split
  · next t heq =>
    rw [heq] at hread
    have hmiss : identifier ('[' :: t) = .miss .identifier ('[' :: t) := rfl
    cases hmiss.symm.trans hread
  · rw [hread]

mutual

/-- A value that is no flag reads back, if all in it is seen. -/
theorem value_written : ∀ (v : Value) {room : Nat} {text : String} {rest : List Char},
    v.Worded Shown → v ≠ .flag true → v.depth ≤ room → Writing.value v = .ok text → Ends rest →
      value (paramList room) (text.toList ++ rest) = .read v rest ∧
      blank (text.toList ++ rest) = .read () (text.toList ++ rest)
  | .flag on, _, _, _, hshown, hflag, _, _, _ => absurd (congrArg Value.flag hshown) hflag
  | .text _, _, _, _, hshown, _, _, h, hrest =>
    ⟨value_text (name_eq_ok h) hrest, blank_written (name_eq_ok h) hshown hrest⟩
  | .record es, room, text, rest, hshown, _, hdepth, h, hrest => by
    rw [Writing.value] at h
    rcases hes : Writing.entries es with e | texts <;> rw [hes] at h <;> cases h
    obtain ⟨hascending, hshown⟩ := hshown
    obtain ⟨room, rfl⟩ : ∃ r, room = r + 1 := ⟨room - 1, by rw [Value.depth] at hdepth; omega⟩
    have hentries := entries_written es hshown (Nat.le_of_succ_le_succ hdepth) hes
    have hread := paramList_entered hentries rest
    obtain ⟨t, ht⟩ := bracketed_toList texts
    rw [ht, List.cons_append] at hread ⊢
    refine ⟨?_, blank_of_not (by decide) _⟩
    rw [value, hread]
    show Outcome.read (Value.record (ParamList.ofEntries es).entries) rest = _
    rw [ParamList.entries_ofEntries hascending]

/-- The entries of a list read back one by one. -/
theorem entries_written : ∀ (es : List (String × Value)) {room : Nat} {texts : List String},
    Value.WordedEntries Shown es → Value.depthEntries es ≤ room →
      Writing.entries es = .ok texts → List.Forall₂ (Entered (paramList room)) es texts
  | [], _, _, _, _, h => by
    rw [Writing.entries] at h
    cases h
    exact .nil
  | (key, v) :: es, room, texts, hshown, hdepth, h => by
    obtain ⟨hkey, hv, hes⟩ := hshown
    rw [Value.depthEntries, Nat.max_le] at hdepth
    obtain ⟨k, first, others, hk, hothers, rfl, hfirst⟩ := entries_cons_eq_ok h
    refine .cons ?_ (entries_written es hes hdepth.2 hothers)
    rcases hfirst with ⟨rfl, rfl⟩ | ⟨hflag, w, hw, rfl⟩
    · exact entered_flag hk hkey
    · exact entered_value hk hkey fun rest hrest => value_written v hv hflag hdepth.1 hw hrest

end

/-- Entries that are seen and not nested too deep read back as the list that they make up. -/
theorem paramList_written (hes : Value.WordedEntries Shown es)
    (hdepth : Value.depthEntries es < maxListDepth)
    (h : Writing.entries es = .ok texts) (rest : List Char) :
    paramList maxListDepth ((Writing.bracketed texts).toList ++ rest) =
      .read (ParamList.ofEntries es) rest := by
  obtain ⟨room, hroom⟩ : ∃ r, maxListDepth = r + 1 := ⟨maxListDepth - 1, rfl⟩
  rw [hroom] at hdepth ⊢
  exact paramList_entered (entries_written es hes (Nat.le_of_lt_succ hdepth) h) rest

end Grammar

end DecayForest
