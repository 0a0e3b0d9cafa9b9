/-!
# Outcomes of reading

A rule of the grammar takes a text and reads a value off its front. It may also miss, and then
another rule can be tried on the same text, or fault, and then the whole document is refused.
-/

namespace DecayForest.Grammar

/-- How deep parameter lists may stand inside one another. -/
def maxListDepth : Nat := 64

/-- What the grammar asks for at a place. -/
inductive Expected where
  | identifier
  | statement
  | parameterValue
  | closingQuote
  | endOfComment
  | shallowerList
  | character (c : Char)
deriving DecidableEq, Repr

/-- The words for it. -/
def Expected.text : Expected → String
  | identifier => "identifier"
  | statement => "statement"
  | parameterValue => "parameter value"
  | closingQuote => "closing '\"'"
  | endOfComment => "end of block comment"
  | shallowerList => "at most " ++ toString maxListDepth ++ " nested parameter lists"
  | character c => "'" ++ c.toString ++ "'"

/-- What a rule makes of a text. -/
inductive Outcome (α : Type) where
  /-- A value, and what follows it. -/
  | read (value : α) (rest : List Char)
  /-- The rule does not apply. -/
  | miss (expected : Expected) (place : List Char)
  /-- No rule applies. -/
  | fault (expected : Expected) (place : List Char)
deriving DecidableEq

namespace Outcome

variable {α β : Type}

/-- Goes on behind what was read. -/
def bind (o : Outcome α) (next : α → List Char → Outcome β) : Outcome β :=
  match o with
  | read a rest => next a rest
  | miss e place => miss e place
  | fault e place => fault e place

/-- Changes the value. -/
def map (f : α → β) (o : Outcome α) : Outcome β :=
  o.bind fun a rest => read (f a) rest

/-- Nothing, with the text `s` untouched, in place of a miss. -/
def optional (s : List Char) : Outcome α → Outcome (Option α)
  | read a rest => read (some a) rest
  | miss _ _ => read none s
  | fault e place => fault e place

/-- Places and rests are suffixes of `s`. -/
def Within (s : List Char) : Outcome α → Prop
  | read _ rest => rest <:+ s
  | miss _ place => place <:+ s
  | fault _ place => place <:+ s

theorem Within.trans {s t : List Char} {o : Outcome α} (h : o.Within t) (hts : t <:+ s) :
    o.Within s := by
  cases o <;> exact List.IsSuffix.trans h hts

theorem Within.suffix {s rest : List Char} {o : Outcome α} {a : α} (h : o.Within s)
    (hread : o = read a rest) : rest <:+ s := by
  subst hread
  exact h

theorem Within.bind {s : List Char} {o : Outcome α} {next : α → List Char → Outcome β}
    (h : o.Within s) (hnext : ∀ a rest, (next a rest).Within rest) : (o.bind next).Within s := by
  cases o with
  | read a rest => exact (hnext a rest).trans h
  | miss | fault => exact h

theorem Within.map {s : List Char} {o : Outcome α} (h : o.Within s) (f : α → β) :
    (o.map f).Within s :=
  h.bind fun _ rest => List.suffix_refl rest

theorem Within.optional {s : List Char} {o : Outcome α} (h : o.Within s) :
    (o.optional s).Within s := by
  cases o with
  | miss => exact List.suffix_refl s
  | read | fault => exact h

end Outcome

variable {α : Type}

/-- Reads items until one misses, after the items `taken` in reverse. The list in front bounds how
many there are: an item takes a character at least, so a text bounds its own items. -/
def manyFrom (item : List Char → Outcome α) :
    List Char → List α → List Char → Outcome (List α)
  | [], taken, s => .read taken.reverse s
  | _ :: bound, taken, s =>
    match item s with
    | .read a rest => manyFrom item bound (a :: taken) rest
    | .miss _ _ => .read taken.reverse s
    | .fault e place => .fault e place

/-- As many items as can be read. -/
def many (item : List Char → Outcome α) (s : List Char) : Outcome (List α) :=
  manyFrom item s [] s

theorem manyFrom_within {item : List Char → Outcome α} (h : ∀ s, (item s).Within s)
    (bound : List Char) (taken : List α) (s : List Char) :
    (manyFrom item bound taken s).Within s := by
  induction bound generalizing taken s with
  | nil => exact List.suffix_refl s
  | cons c bound ih =>
    have hs := h s
    unfold manyFrom
    split
    · next heq => rw [heq] at hs; exact (ih _ _).trans hs
    · exact List.suffix_refl s
    · next heq => rw [heq] at hs; exact hs

theorem many_within {item : List Char → Outcome α} (h : ∀ s, (item s).Within s) (s : List Char) :
    (many item s).Within s :=
  manyFrom_within h s [] s

/-- A given character. -/
def character (c : Char) : List Char → Outcome Unit
  | [] => .miss (.character c) []
  | d :: s => if d = c then .read () s else .miss (.character c) (d :: s)

/-- A character that the document cannot do without. -/
def required (c : Char) : List Char → Outcome Unit
  | [] => .fault (.character c) []
  | d :: s => if d = c then .read () s else .fault (.character c) (d :: s)

theorem character_within (c : Char) (s : List Char) : (character c s).Within s := by
  cases s with
  | nil => exact List.suffix_refl _
  | cons d s => by_cases h : d = c <;> simp [character, h, Outcome.Within]

theorem required_within (c : Char) (s : List Char) : (required c s).Within s := by
  cases s with
  | nil => exact List.suffix_refl _
  | cons d s => by_cases h : d = c <;> simp [required, h, Outcome.Within]

end DecayForest.Grammar
