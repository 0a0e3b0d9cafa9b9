import DecayForest.Environment
import DecayForest.Number.Reading
import DecayForest.Text.Pieces
/-!
# Settings in variables

A variable stands for a setting if its name starts with `graphphys_`, in any letter case. What
follows is a key: names with dots between them, and behind each name positions in lists, which stand
in brackets. Two underscores in a row are a dot. A key of one name sets what has this name as a
whole, and a longer one sets a part of it.
-/

namespace DecayForest.Settings

/-- The start of the names of variables that are settings, in any letter case. -/
def variableStart : String := "graphphys_"

/-- A letter in lower case, if the basic alphabet has that. The kelvin sign is a large letter too. -/
def lower (c : Char) : Char :=
  if c = '\u212a' then 'k' else c.toLower

/-- A text with a dot in the place of each two underscores. -/
def dotted : List Char → List Char
  | '_' :: '_' :: s => '.' :: dotted s
  | c :: s => c :: dotted s
  | [] => []

/-! ### Integers -/

/-- An integer in the range of 64 bits with a sign, with a sign of either kind in front. -/
def integer? (s : List Char) : Option Int :=
  let (negative, ds) := Number.readSign s
  if ds.isEmpty || !ds.all Char.isDigit then none
  else
    let n : Int := Number.Decimal.natOfDigits ds
    let n := if negative then -n else n
    if Int64.minValue.toInt ≤ n && n ≤ Int64.maxValue.toInt then some n else none

/-- An integer, or a word for one or zero. -/
def count? (s : String) : Option Int :=
  let word := String.ofList (s.toList.map Char.toLower)
  if ["true", "on", "yes"].contains word then some 1
  else if ["false", "off", "no"].contains word then some 0
  else integer? s.toList

/-! ### Keys -/

/-- A name in a key, and the positions behind it. -/
structure KeyPart where
  name : List Char
  positions : List Int := []
deriving DecidableEq, Repr

/-- Whether a name in a key may hold a character. -/
def isKeyChar (c : Char) : Bool :=
  c.isAlphanum || [' ', '_', '-'].contains c

/-- Whether a position may have a character in front of it and behind it. -/
def isGap (c : Char) : Bool :=
  c = ' ' || c = '\t'

/-- A position in a list, counted from the end if it is negative. It has no plus sign. -/
def position? (s : List Char) : Option Int :=
  match ((s.dropWhile isGap).reverse.dropWhile isGap).reverse with
  | '+' :: _ => none
  | s => integer? s

/-- Positions, each in brackets. -/
def positions? (s : List Char) : Option (List Int) :=
  match Text.pieces '[' s with
  | [] :: bracketed =>
    bracketed.mapM fun p => if p.getLast? = some ']' then position? p.dropLast else none
  | _ => none

/-- A name and positions. -/
def keyPart? (s : List Char) : Option KeyPart :=
  let name := s.takeWhile isKeyChar
  if name.isEmpty then none else (positions? (s.dropWhile isKeyChar)).map (⟨name, ·⟩)

/-- The key in the name of a variable. -/
def key? (variableName : String) : Option (List KeyPart) := do
  let key ← Environment.after? variableStart.toList (variableName.toList.map lower)
  (Text.pieces '.' (dotted key)).mapM keyPart?

/-- A length that no list reaches. -/
def lengthBound : Nat := 0x100000000000000

/-- Whether a key has a position that no list can have. The lists of a key are made for it and have
no entries yet, so nothing can be counted from their end. -/
def isOutside (key : List KeyPart) : Bool :=
  key.any fun part => part.positions.any fun n => n < 0 || lengthBound ≤ n

/-- The name of a variable with such a position, whatever the setting. -/
def outside? (env : Environment) : Option String :=
  (env.values.find? fun v => (key? v.1).any isOutside).map Prod.fst

/-! ### Values -/

/-- What variables say about a setting. -/
inductive Given where
  | absent
  | whole (value : String)
  | parts

/-- What one variable says about a setting. -/
def givenBy? (setting : String) : String × String → Option Given
  | (variableName, value) =>
    match key? variableName with
    | some (first :: rest) =>
      if first.name != setting.toList then none
      else if first.positions.isEmpty && rest.isEmpty then some (.whole value)
      else some .parts
    | _ => none

/-- What variables say about a setting. The last one that says anything counts. -/
def given (env : Environment) (setting : String) : Given :=
  env.values.foldl (fun found v => (givenBy? setting v).getD found) .absent

end DecayForest.Settings
