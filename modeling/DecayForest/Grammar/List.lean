import DecayForest.Grammar.Blank
import DecayForest.Grammar.Identifier
import DecayForest.Params
/-!
# Parameter lists

A list stands in brackets. Its entries are names, or names with a value behind `=`; a comma may
follow each. A value is an identifier or another list. What stands in brackets is binding: whatever
cannot be read there is a fault.
-/

namespace DecayForest.Grammar

/-- A value, where it cannot be left out. Inner lists are read by `inner`. -/
def value (inner : List Char → Outcome ParamList) (s : List Char) : Outcome Value :=
  match s with
  | '[' :: _ => (inner s).map fun ps => .record ps.entries
  | _ =>
    match identifier s with
    | .read name rest => .read (.text name) rest
    | .miss .closingQuote place => .fault .closingQuote place
    | .miss _ _ => .fault .parameterValue s
    | .fault e place => .fault e place

/-- The sign between a name and its value, with blanks around it. -/
def assigns (s : List Char) : Outcome Unit :=
  (blank s).bind fun _ s => (character '=' s).bind fun _ s => blank s

/-- An entry with the blanks and the comma around it. -/
def entry (inner : List Char → Outcome ParamList) (s : List Char) : Outcome (String × Value) :=
  (blank s).bind fun _ s =>
  (identifier s).bind fun name s =>
  (((assigns s).bind fun _ s => value inner s).optional s).bind fun v s =>
  (blank s).bind fun _ s =>
  ((character ',' s).optional s).map fun _ => (name, v.getD .present)

/-- A list with at most so many lists inside one another. -/
def paramList : Nat → List Char → Outcome ParamList
  | 0, '[' :: s => .fault .shallowerList s
  | room + 1, '[' :: s =>
    (many (entry (paramList room)) s).bind fun entries s =>
    (blank s).bind fun _ s =>
    (required ']' s).map fun _ => ParamList.ofEntries entries
  | _, s => .miss (.character '[') s

/-- A list that may be left out, with the blanks before it. -/
def someParams (s : List Char) : Outcome ParamList :=
  (((blank s).bind fun _ s => paramList maxListDepth s).optional s).map fun ps => ps.getD ∅

theorem value_within {inner : List Char → Outcome ParamList} (h : ∀ s, (inner s).Within s)
    (s : List Char) : (value inner s).Within s := by
  have hid := identifier_within s
  unfold value
  split
  · exact (h _).map _
  · split
    · next heq => rw [heq] at hid; exact hid
    · next heq => rw [heq] at hid; exact hid
    · exact List.suffix_refl s
    · next heq => rw [heq] at hid; exact hid

theorem assigns_within (s : List Char) : (assigns s).Within s :=
  (blank_within s).bind fun _ s => (character_within '=' s).bind fun _ s => blank_within s

theorem entry_within {inner : List Char → Outcome ParamList} (h : ∀ s, (inner s).Within s)
    (s : List Char) : (entry inner s).Within s :=
  (blank_within s).bind fun _ s =>
  (identifier_within s).bind fun _ s =>
  (((assigns_within s).bind fun _ s => value_within h s).optional).bind fun _ s =>
  (blank_within s).bind fun _ s =>
  (character_within ',' s).optional.map _

theorem paramList_within (room : Nat) (s : List Char) : (paramList room s).Within s := by
  induction room generalizing s with
  | zero =>
    unfold paramList
    split
    · exact List.suffix_cons _ _
    · contradiction
    · exact List.suffix_refl _
  | succ room ih =>
    unfold paramList
    split
    · contradiction
    · next s heq =>
      cases heq
      refine Outcome.Within.trans ?_ (List.suffix_cons '[' s)
      exact (many_within (entry_within ih) s).bind fun _ s =>
        (blank_within s).bind fun _ s => (required_within ']' s).map _
    · exact List.suffix_refl _

theorem someParams_within (s : List Char) : (someParams s).Within s :=
  ((blank_within s).bind fun _ s => paramList_within maxListDepth s).optional.map _

end DecayForest.Grammar
