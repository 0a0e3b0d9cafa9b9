import DecayForest.Params
/-!
# Statements

A document is a list of statements, each with the place where it starts. `Position.locate` finds
the place of a suffix of a text by counting what stands before it.
-/

namespace DecayForest

/-- A line and a column, both counted from one. Columns count characters. -/
structure Position where
  line : Nat
  column : Nat
deriving DecidableEq, Repr

namespace Position

/-- The place behind a character that stands at a place. -/
def advance (p : Position) (c : Char) : Position :=
  if c = '\n' then ⟨p.line + 1, 1⟩ else ⟨p.line, p.column + 1⟩

/-- The place behind a text. -/
def after (s : List Char) : Position :=
  s.foldl advance ⟨1, 1⟩

/-- The place of a suffix `rest` of a text `s` that stands at `p`. -/
def past (p : Position) (s rest : List Char) : Position :=
  (s.take (s.length - rest.length)).foldl advance p

/-- The length of a text in bytes. -/
def bytes (s : List Char) : Nat :=
  s.foldl (fun n c => n + c.utf8Size) 0

/-- The number of leading characters that fill `n` bytes, if some number of them does; `count`
characters come before them. -/
def charsIn? (count : Nat) : Nat → List Char → Option Nat
  | 0, _ => some count
  | _ + 1, [] => none
  | n + 1, c :: s =>
    if c.utf8Size ≤ n + 1 then charsIn? (count + 1) (n + 1 - c.utf8Size) s else none

/-- The place of `rest` in `source`, told by the lengths of both in bytes. A length that splits a
character stands for the end of the source. -/
def locate (source rest : List Char) : Position :=
  after (source.take ((charsIn? 0 (bytes source - bytes rest) source).getD source.length))

/-- The place as `line:column`. -/
def text (p : Position) : String :=
  toString p.line ++ ":" ++ toString p.column

end Position

/-- A value and the place where its text starts. -/
structure Located (α : Type) where
  position : Position
  value : α

/-- What a default applies to. -/
inductive Scope where
  | particle
  | decay
deriving DecidableEq, Repr

/-- A statement of a document. -/
inductive Statement where
  /-- Declares a particle or adds to one. -/
  | node (name : String) (params : ParamList)
  /-- A decay of the particle `source`. -/
  | edge (source : String) (targets : List String) (params : ParamList)
  /-- Parameters for all particles, or all decays, that follow. -/
  | defaults (scope : Scope) (params : ParamList)
  /-- A parameter of the whole group. -/
  | param (name : String) (value : Value)
deriving Inhabited

end DecayForest
