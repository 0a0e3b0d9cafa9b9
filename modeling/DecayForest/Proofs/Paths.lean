import DecayForest.Path
import Mathlib.Data.List.DropRight
import Mathlib.Data.List.Infix
/-!
# Paths

Two paths are the same if they start at the same place and go the same way (`Path.Same`): segments that stay
where they are do not count. The directory of a file in a directory is that directory again
(`Path.parent_join`), and a path without dollar signs and without a tilde in front expands to itself
(`Path.expand_plain`).
-/

namespace DecayForest

namespace Text

variable {mark : Char} {taken s p : List Char}

theorem piecesFrom_eq (mark : Char) (taken s : List Char) :
    piecesFrom mark taken s = List.splitOnPPrepend (· == mark) s taken := by
  induction s generalizing taken with
  | nil => rfl
  | cons c s ih =>
    rw [piecesFrom, List.splitOnPPrepend_cons_eq_if, ih, ih]
    simp

theorem pieces_eq_splitOn (mark : Char) (s : List Char) : pieces mark s = s.splitOn mark :=
  piecesFrom_eq mark [] s

theorem pieces_append (mark : Char) (s t : List Char) :
    pieces mark (s ++ mark :: t) = pieces mark s ++ pieces mark t := by
  simp only [pieces_eq_splitOn]
  exact List.splitOn_append_cons_self s t

theorem not_mem_of_mem_piecesFrom (htaken : mark ∉ taken) (hp : p ∈ piecesFrom mark taken s) :
    mark ∉ p := by
  induction s generalizing taken with
  | nil =>
    obtain rfl := List.mem_singleton.mp hp
    simpa using htaken
  | cons c s ih =>
    rw [piecesFrom] at hp
    split at hp
    · rcases List.mem_cons.mp hp with rfl | hp
      · simpa using htaken
      · exact ih List.not_mem_nil hp
    · next hne =>
      apply ih _ hp
      simp [htaken, Ne.symm hne]

theorem exists_piecesFrom (mark : Char) (taken s : List Char) :
    ∃ ps, piecesFrom mark taken s = (taken.reverse ++ s.takeWhile (· != mark)) :: ps := by
  induction s generalizing taken with
  | nil => exact ⟨[], by simp [piecesFrom]⟩
  | cons c s ih =>
    by_cases hc : c = mark
    · exact ⟨piecesFrom mark [] s, by simp [piecesFrom, hc]⟩
    · obtain ⟨ps, hps⟩ := ih (c :: taken)
      exact ⟨ps, by simp [piecesFrom, hc, hps]⟩

theorem pieces_eq_singleton (h : mark ∉ s) : pieces mark s = [s] := by
  have hone : ([mark].intercalate [s]).splitOn mark = [s] :=
    List.splitOn_intercalate mark (by simpa using h) (List.cons_ne_nil s [])
  rwa [List.intercalate_singleton, ← pieces_eq_splitOn] at hone

theorem pieces_intercalate {ps : List (List Char)} (hps : ps.Sublist (pieces mark s)) (hne : ps ≠ []) :
    pieces mark ([mark].intercalate ps) = ps := by
  rw [pieces_eq_splitOn]
  refine List.splitOn_intercalate mark (fun p hp => ?_) hne
  exact not_mem_of_mem_piecesFrom List.not_mem_nil (hps.subset hp)

end Text

namespace Path

variable {s : List Char} {directory path file : String}

/-! ### Ways -/

/-- The segments of a text that lead somewhere. -/
def way (s : List Char) : List (List Char) :=
  (segments s).filter fun part => !isIdle part

/-- Two paths start at the same place and go the same way. -/
def Same (path path' : String) : Prop :=
  isAbsolute path = isAbsolute path' ∧ way path.toList = way path'.toList

theorem way_append (s t : List Char) : way (s ++ '/' :: t) = way s ++ way t := by
  rw [way, segments, Text.pieces_append, List.filter_append]
  rfl

theorem way_cons_slash (s : List Char) : way ('/' :: s) = way s :=
  way_append [] s

/-- A slash at the end does not count. -/
theorem way_append_slash (s : List Char) : way (s ++ ['/']) = way s := by
  rw [way_append]
  exact List.append_nil _

/-! ### Segments at the end -/

theorem isPrefix_trimmed (parts : List (List Char)) : trimmed parts <+: parts :=
  List.rdropWhile_prefix isIdle parts

theorem filter_trimmed (parts : List (List Char)) :
    (trimmed parts).filter (fun part => !isIdle part) = parts.filter fun part => !isIdle part := by
  have hidle : (parts.rtakeWhile isIdle).filter (fun part => !isIdle part) = [] := by
    apply List.filter_eq_nil_iff.mpr
    intro part hpart
    simp [List.mem_rtakeWhile_imp hpart]
  have hparts := congrArg (List.filter fun part => !isIdle part)
    (List.rdropWhile_append_rtakeWhile (p := isIdle) (l := parts))
  rwa [List.filter_append, hidle, List.append_nil] at hparts

/-- The text up to the last segment that leads somewhere. -/
def front (s : List Char) : List Char :=
  ['/'].intercalate (trimmed (segments s))

theorem isPrefix_intercalate (mark : Char) (ps qs : List (List Char)) :
    [mark].intercalate ps <+: [mark].intercalate (ps ++ qs) := by
  induction ps with
  | nil => exact List.nil_prefix
  | cons p ps ih =>
    rcases ps with _ | ⟨q, ps⟩
    · rcases qs with _ | ⟨q, qs⟩
      · exact List.prefix_rfl
      · rw [List.intercalate_singleton, List.singleton_append, List.intercalate_cons_cons,
          List.append_assoc]
        exact List.prefix_append ..
    · rw [List.cons_append, List.cons_append, List.intercalate_cons_cons, List.intercalate_cons_cons]
      exact (List.prefix_append_right_inj _).mpr ih

theorem isPrefix_front (s : List Char) : front s <+: s := by
  obtain ⟨rest, hrest⟩ := isPrefix_trimmed (segments s)
  have h := isPrefix_intercalate '/' (trimmed (segments s)) rest
  rwa [hrest, segments, Text.intercalate_pieces] at h

theorem way_front (s : List Char) : way (front s) = way s := by
  have hway : way s = (trimmed (segments s)).filter fun part => !isIdle part :=
    (filter_trimmed _).symm
  by_cases hnil : trimmed (segments s) = []
  · rw [front, hway, hnil]
    rfl
  · have hsegments : segments (front s) = trimmed (segments s) :=
      Text.pieces_intercalate (isPrefix_trimmed _).sublist hnil
    rw [hway, way, hsegments]

/-! ### The directory of a file -/

/-- A path of a character and a text behind it starts at the root, or with a dot for a segment. -/
def HasStart (c : Char) (b : List Char) : Prop :=
  c = '/' ∨ c = '.' ∧ (b = [] ∨ ∃ u, b = '/' :: u)

variable {c : Char} {b : List Char}

theorem startLength_of_hasStart (h : HasStart c b) (t : List Char) :
    startLength (c :: b ++ '/' :: t) = 1 := by
  rcases h with rfl | ⟨rfl, rfl | ⟨u, rfl⟩⟩ <;> rfl

theorem startLength_of_not_hasStart (h : ¬ HasStart c b) (t : List Char) :
    startLength (c :: b ++ '/' :: t) = 0 := by
  obtain ⟨hslash, hdot⟩ := not_or.mp h
  by_cases hc : c = '.'
  · rcases b with _ | ⟨x, u⟩
    · exact (hdot ⟨hc, .inl rfl⟩).elim
    · have hx : x ≠ '/' := by
        rintro rfl
        exact hdot ⟨hc, .inr ⟨u, rfl⟩⟩
      simp [hc, hx, startLength]
  · simp [hslash, hc, startLength]

/-- A start of its own is no part of the way. -/
theorem way_cons_of_hasStart (h : HasStart c b) (hs : s <+: b) : way (c :: s) = way s := by
  rcases h with rfl | ⟨rfl, rfl | ⟨u, rfl⟩⟩
  · exact way_cons_slash s
  · rw [List.prefix_nil.mp hs]
    rfl
  · rcases s with _ | ⟨x, s⟩
    · rfl
    · obtain rfl := (List.cons_prefix_cons.mp hs).1
      rw [way_cons_slash]
      exact way_append ['.'] s

/-- Without a start of its own, a path leads somewhere at once. -/
theorem front_ne_nil (h : ¬ HasStart c b) : front (c :: b) ≠ [] := by
  intro hnil
  obtain ⟨hslash, hdot⟩ := not_or.mp h
  obtain ⟨ps, hps⟩ := Text.exists_piecesFrom '/' [c] b
  have hsegments : segments (c :: b) = (c :: b.takeWhile (· != '/')) :: ps := by
    rw [segments, Text.pieces, Text.piecesFrom, if_neg hslash, hps]
    rfl
  have hidle : isIdle (c :: b.takeWhile (· != '/')) = true := by
    have hway := way_front (c :: b)
    rw [hnil, way, way, hsegments] at hway
    by_contra hidle
    rw [List.filter_cons_of_pos (by simpa using hidle)] at hway
    cases hway
  have hseg : c = '.' ∧ b.takeWhile (· != '/') = [] := by
    simpa [isIdle] using hidle
  rcases b with _ | ⟨x, u⟩
  · exact hdot ⟨hseg.1, .inl rfl⟩
  · refine hdot ⟨hseg.1, .inr ⟨u, ?_⟩⟩
    simpa [List.takeWhile_cons] using hseg.2

theorem parent?_ofList {start rest last : List Char} {parts : List (List Char)}
    (hstart : startLength (start ++ rest) = start.length)
    (hrest : trimmed (segments rest) = parts ++ [last]) : parent? (String.ofList (start ++ rest)) =
      some (String.ofList (start ++ ['/'].intercalate (trimmed parts))) := by
  rw [parent?, String.toList_ofList, hstart, List.take_left, List.drop_left, hrest]
  simp

section

variable (hfile : '/' ∉ s) (hsome : isIdle s = false)
include hfile hsome

theorem trimmed_segments_append (r : List Char) :
    trimmed (segments (r ++ '/' :: s)) = segments r ++ [s] := by
  rw [segments, Text.pieces_append, Text.pieces_eq_singleton hfile]
  exact List.rdropWhile_concat_neg isIdle (segments r) s (Bool.eq_false_iff.mp hsome)

/-- A file that lies in some place by its path has a directory, and that is the same place. -/
theorem parent?_append (c : Char) (b : List Char) : ∃ dir : List Char,
    parent? (String.ofList (c :: b ++ '/' :: s)) = some (String.ofList dir) ∧
      dir <+: c :: b ∧ dir ≠ [] ∧ way dir = way (c :: b) := by
  by_cases h : HasStart c b
  · have hparent : parent? (String.ofList ([c] ++ (b ++ '/' :: s))) = _ :=
      parent?_ofList (startLength_of_hasStart h s) (trimmed_segments_append hfile hsome b)
    refine ⟨c :: front b, hparent, List.cons_prefix_cons.mpr ⟨rfl, isPrefix_front b⟩,
      List.cons_ne_nil _ _, ?_⟩
    rw [way_cons_of_hasStart h (isPrefix_front b), way_cons_of_hasStart h List.prefix_rfl, way_front]
  · have hparent : parent? (String.ofList ([] ++ (c :: b ++ '/' :: s))) = _ :=
      parent?_ofList (startLength_of_not_hasStart h s) (trimmed_segments_append hfile hsome (c :: b))
    exact ⟨front (c :: b), hparent, isPrefix_front _, front_ne_nil h, way_front _⟩

theorem parent?_root : parent? (String.ofList ('/' :: s)) = some "/" := by
  have htrimmed : trimmed (segments s) = [] ++ [s] := by
    rw [segments, Text.pieces_eq_singleton hfile]
    exact List.rdropWhile_concat_neg isIdle [] s (Bool.eq_false_iff.mp hsome)
  have hparent : parent? (String.ofList (['/'] ++ s)) = _ := parent?_ofList rfl htrimmed
  exact hparent

end

/-! ### Joined paths -/

theorem join_empty (path : String) : join "" path = path :=
  if_pos (Bool.or_true _)

/-- A relative path comes behind a slash, and one slash at the end of the directory is enough. -/
theorem toList_join (hdirectory : directory ≠ "") (hpath : isAbsolute path = false) :
    ∃ b, (directory.toList = b ∨ directory.toList = b ++ ['/']) ∧
      (join directory path).toList = b ++ '/' :: path.toList := by
  have hempty : directory.isEmpty = false := by simpa using hdirectory
  rw [join, hpath, hempty, Bool.or_false, if_neg Bool.false_ne_true]
  split
  · next hlast =>
    obtain ⟨b, hb⟩ := List.getLast?_eq_some_iff.mp (beq_iff_eq.mp hlast)
    refine ⟨b, .inr hb, ?_⟩
    rw [String.toList_append, hb, List.append_assoc]
    rfl
  · refine ⟨directory.toList, .inl rfl, ?_⟩
    rw [String.toList_append, String.toList_append, List.append_assoc]
    rfl

theorem way_join (directory : String) (hpath : isAbsolute path = false) :
    way (join directory path).toList = way directory.toList ++ way path.toList := by
  by_cases hdirectory : directory = ""
  · rw [hdirectory, join_empty]
    rfl
  · obtain ⟨b, hb | hb, hjoin⟩ := toList_join hdirectory hpath
    · rw [hjoin, way_append, hb]
    · rw [hjoin, way_append, hb, way_append_slash]

/-- What a joined path begins with: the directory, or the path where there is no directory. -/
theorem head?_join (directory : String) (hpath : isAbsolute path = false) :
    (join directory path).toList.head? = directory.toList.head?.or path.toList.head? := by
  by_cases hdirectory : directory = ""
  · rw [hdirectory, join_empty]
    rfl
  obtain ⟨b, hb, hjoin⟩ := toList_join hdirectory hpath
  rw [hjoin]
  rcases b with _ | ⟨c, b⟩
  · rcases hb with hb | hb
    · exact (hdirectory (String.toList_eq_nil_iff.mp hb)).elim
    · rw [hb]
      rfl
  · rcases hb with hb | hb <;> rw [hb] <;> rfl

theorem isAbsolute_join (directory : String) (hpath : isAbsolute path = false) :
    isAbsolute (join directory path) = isAbsolute directory := by
  rw [isAbsolute, head?_join directory hpath, isAbsolute]
  rcases directory.toList.head? with _ | c
  · exact hpath
  · rfl

theorem mem_join {c : Char} (hc : c ≠ '/') (directory : String) (hpath : isAbsolute path = false) :
    c ∈ (join directory path).toList ↔ c ∈ directory.toList ∨ c ∈ path.toList := by
  by_cases hdirectory : directory = ""
  · simp [hdirectory, join_empty]
  · obtain ⟨b, hb | hb, hjoin⟩ := toList_join hdirectory hpath <;> simp [hjoin, hb, hc]

/-- A relative path leads to the same place from the same directory. -/
theorem Same.join {directory directory' : String} (h : Same directory directory')
    (hpath : isAbsolute path = false) : Same (join directory path) (join directory' path) := by
  constructor
  · rw [isAbsolute_join _ hpath, isAbsolute_join _ hpath, h.1]
  · rw [way_join _ hpath, way_join _ hpath, h.2]

/-- A file is in the directory that its path has been joined with. Segments at the end of the directory that
lead nowhere are left out. -/
theorem parent_join (hfile : '/' ∉ file.toList) (hsome : isIdle file.toList = false)
    (hbare : parent? file = some "") (directory : String) :
    ∃ above, parent? (join directory file) = some above ∧ above.toList <+: directory.toList ∧
      above.toList.head? = directory.toList.head? ∧ way above.toList = way directory.toList := by
  by_cases hdirectory : directory = ""
  · subst hdirectory
    exact ⟨"", by rw [join_empty, hbare], List.prefix_rfl, rfl, rfl⟩
  have hrelative : isAbsolute file = false := by
    apply Bool.eq_false_iff.mpr
    intro habsolute
    exact hfile (List.mem_of_head? (beq_iff_eq.mp habsolute))
  obtain ⟨b, hb, hjoin⟩ := toList_join hdirectory hrelative
  have htext : join directory file = String.ofList (b ++ '/' :: file.toList) := by
    rw [← hjoin, String.ofList_toList]
  rcases b with _ | ⟨c, b⟩
  · obtain rfl : directory = "/" := by
      rcases hb with hb | hb
      · exact (hdirectory (String.toList_eq_nil_iff.mp hb)).elim
      · exact String.toList_injective hb
    exact ⟨"/", htext ▸ parent?_root hfile hsome, List.prefix_rfl, rfl, rfl⟩
  · obtain ⟨dir, hparent, hprefix, hne, hway⟩ := parent?_append hfile hsome c b
    obtain ⟨hall, hwayb, hhead⟩ : c :: b <+: directory.toList ∧ way directory.toList = way (c :: b) ∧
        directory.toList.head? = some c := by
      rcases hb with hb | hb <;> rw [hb]
      · exact ⟨List.prefix_rfl, rfl, rfl⟩
      · exact ⟨List.prefix_append .., way_append_slash _, rfl⟩
    refine ⟨String.ofList dir, htext ▸ hparent, ?_, ?_, ?_⟩ <;> rw [String.toList_ofList]
    · exact hprefix.trans hall
    · obtain ⟨c', dir, rfl⟩ := List.exists_cons_of_ne_nil hne
      obtain ⟨rfl, -⟩ := List.cons_prefix_cons.mp hprefix
      exact hhead.symm
    · rw [hway, hwayb]

/-! ### Expansion -/

theorem expandFrom_plain (valueOf : String → Option String) {bound : List Char}
    (hs : '$' ∉ s) (hbound : s.length ≤ bound.length) (taken : List Char) :
    expandFrom valueOf bound taken s = some (taken.reverse ++ s) := by
  induction s generalizing bound taken with
  | nil => cases bound <;> simp [expandFrom]
  | cons c s ih =>
    obtain ⟨hc, hs⟩ := not_or.mp (mt List.mem_cons.mpr hs)
    rcases bound with _ | ⟨x, bound⟩
    · rfl
    · have hitem : expandItem valueOf (c :: s) = some ([c], s) := by
        simp [expandItem, Ne.symm hc]
      rw [expandFrom, hitem]
      · have hrest := ih hs (Nat.le_of_succ_le_succ hbound) (c :: taken)
        simpa using hrest
      · exact nofun

/-- Without a dollar sign and without a tilde in front nothing is replaced. -/
theorem expand_plain (valueOf : String → Option String) (home : Option String)
    (hpath : '$' ∉ path.toList) (htilde : hasTilde path = false) : expand valueOf home path = path := by
  have hnames : expandNames? valueOf path = some path := by
    rw [expandNames?, expandFrom_plain valueOf hpath (Nat.le_refl _)]
    simp
  rw [expand, hnames]
  dsimp only
  rw [htilde]
  rfl

end Path

end DecayForest
