/-!
# TOML documents

The content of a TOML document is a table of named values. `TableKind` remembers how a table came
about, since that decides what may still be added to it.
-/

namespace DecayForest

/-- How a table came about. -/
inductive TableKind where
  /-- Written in braces; nothing can be added. -/
  | inline
  /-- Opened by a header of its own, as the whole document is. -/
  | header
  /-- Implied by the header of a table inside it. -/
  | implied
  /-- Implied by a dotted key. -/
  | dotted
deriving DecidableEq, Repr

/-- A value of a TOML document. -/
inductive Toml where
  | boolean (b : Bool)
  | integer (n : Int)
  | float (x : Float)
  | text (s : String)
  /-- A date, a time or both, in the standard spelling. -/
  | moment (s : String)
  | array (items : List Toml)
  | table (kind : TableKind) (entries : List (String × Toml))
  /-- A sequence of tables with one header each, the last one first. -/
  | tables (elements : List (List (String × Toml)))
deriving Inhabited

namespace Toml

/-- The named values of a table. -/
abbrev Entries := List (String × Toml)

/-- Reads a value off the front of a text, and tells what follows. -/
abbrev Reader (α : Type) := List Char → Option (α × List Char)

/-- Reads items until there is none, after the items `taken` in reverse. The text in front bounds
how many there are. -/
def collectFrom {α : Type} (item : Reader α) : List Char → List α → List Char → List α × List Char
  | [], taken, s => (taken.reverse, s)
  | _ :: bound, taken, s =>
    match item s with
    | some (a, rest) => collectFrom item bound (a :: taken) rest
    | none => (taken.reverse, s)

/-- As many items as there are. Each takes a character at least. -/
def collect {α : Type} (item : Reader α) (s : List Char) : List α × List Char :=
  collectFrom item s [] s

/-- A given text. -/
def literal (expected : List Char) (s : List Char) : Option (List Char) :=
  if s.take expected.length = expected then some (s.drop expected.length) else none

end Toml

end DecayForest
