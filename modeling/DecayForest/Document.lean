import DecayForest.Grammar.Statement
/-!
# Documents

A document is a sequence of statements with semicolons between them. It is read as a whole or
refused as a whole: `SyntaxError` tells the place of the first fault, what the grammar asks for
there, and what stands there instead.
-/

namespace DecayForest

open Grammar

/-- How much of the text at a fault is shown. -/
def excerptLength : Nat := 16

/-- What stands at a fault: its first word, cut off at some length. -/
def excerpt (s : List Char) : String :=
  match (s.takeWhile fun c => !Text.isBlank c).take excerptLength, s with
  | [], [] => "end of input"
  | [], _ => "whitespace"
  | word, _ => "'" ++ String.ofList word ++ "'"

/-- A text that is no document. -/
structure SyntaxError where
  position : Position
  expected : Expected
  found : String

namespace SyntaxError

/-- The error at a suffix of a text. -/
def within (source place : List Char) (expected : Expected) : SyntaxError :=
  ⟨Position.locate source place, expected, excerpt place⟩

/-- The text of the error. -/
def message (e : SyntaxError) : String :=
  "syntax error at line " ++ toString e.position.line ++ ", column " ++
    toString e.position.column ++ ": expected " ++ e.expected.text ++ ", found " ++ e.found

end SyntaxError

namespace Document

/-- A value read from a suffix of `source`, or the error. -/
def settle {α : Type} (source : List Char) : Outcome α → Except SyntaxError (α × List Char)
  | .read a rest => .ok (a, rest)
  | .miss e place => .error (.within source place e)
  | .fault e place => .error (.within source place e)

/-- Reads the statements that start at `s`, which stands at `here`, after the statements `taken` in
reverse. The list in front bounds how many there are, as each takes a character at least. -/
def statementsFrom (source : List Char) :
    List Char → List (Located Statement) → Position → List Char →
      Except SyntaxError (List (Located Statement))
  | [], _, _, s => .error (.within source s .statement)
  | _ :: bound, taken, here, s => do
    let (first, s') ← settle source (statement s)
    let taken := ⟨here, first⟩ :: taken
    let ((), s') ← settle source (blank s')
    if s'.isEmpty then return taken.reverse
    let ((), s') ← settle source (required ';' s')
    let ((), s') ← settle source (blank s')
    if s'.isEmpty then return taken.reverse
    statementsFrom source bound taken (here.past s s') s'

/-- The statements of a document, in order. -/
def read (source : String) : Except SyntaxError (List (Located Statement)) := do
  let text := source.toList
  let ((), s) ← settle text (blank text)
  statementsFrom text s [] (Position.past ⟨1, 1⟩ text s) s

end Document

end DecayForest
