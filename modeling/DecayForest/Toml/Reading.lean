import DecayForest.Toml.Assembly
import DecayForest.Toml.Number
import DecayForest.Toml.Text
/-!
# Reading TOML

A document is a sequence of lines, each with a pair, a header or a comment; only arrays and some
strings run over several. `read?` gives the entries of the whole document, or nothing where any part
of it is wrong.
-/

namespace DecayForest.Toml

/-- How deep arrays and inline tables may stand inside one another. -/
def maxNesting : Nat := 79

/-- How many parts a dotted key may have. -/
def maxKeyParts : Nat := 79

/-- The text with line feeds for all line breaks. -/
def unixLines : List Char → List Char → List Char
  | taken, '\r' :: '\n' :: s => unixLines ('\n' :: taken) s
  | taken, c :: s => unixLines (c :: taken) s
  | taken, [] => taken.reverse

/-- The text behind spaces and tabs. -/
def skipSpaces (s : List Char) : List Char :=
  s.dropWhile fun c => c == ' ' || c == '\t'

/-- The text behind blanks, line breaks and comments. -/
def skipLines (inComment : Bool) : List Char → List Char
  | [] => []
  | c :: s =>
    if inComment then
      if c = '\n' then skipLines false s else if isPrintable c then skipLines true s else c :: s
    else if c = '#' then skipLines true s
    else if c = ' ' || c = '\t' || c = '\n' then skipLines false s
    else c :: s

/-- The text behind the end of a line, which may have a comment. -/
def endLine? (s : List Char) : Option (List Char) :=
  let rest := match skipSpaces s with
    | '#' :: s => s.dropWhile isPrintable
    | s => s
  match rest with
  | [] => some []
  | '\n' :: s => some s
  | _ => none

/-- Whether a key without quotes may hold a character. -/
def isKeyChar (c : Char) : Bool :=
  c.isAlphanum || c = '-' || c = '_'

/-- One part of a key, with the blanks around it. -/
def keyPart? (s : List Char) : Option (String × List Char) := do
  let s := skipSpaces s
  let bare := s.takeWhile isKeyChar
  let (part, rest) ← if bare.isEmpty then lineString? s
    else pure (String.ofList bare, s.dropWhile isKeyChar)
  return (part, skipSpaces rest)

/-- A key. -/
def key? (s : List Char) : Option (List String × List Char) := do
  let (first, s) ← keyPart? s
  let (others, s) := collect (fun s => do keyPart? (← literal ['.'] s)) s
  if maxKeyParts < (first :: others).length then none else return (first :: others, s)

/-- Items with commas between them. -/
def separated {α : Type} (item : Reader α) (s : List Char) : List α × List Char :=
  match item s with
  | none => ([], s)
  | some (first, s) =>
    let (others, s) := collect (fun s => do item (← literal [','] s)) s
    (first :: others, s)

/-- A pair, with a value that `value` reads. -/
def pair? (value : Reader Toml) (s : List Char) : Option (Pair × List Char) := do
  let (path, s) ← key? s
  let s ← literal ['='] s
  let (v, s) ← value (skipSpaces s)
  return (⟨path, v⟩, skipSpaces s)

/-- The items of an array and its closing bracket. A comma may follow the last item. -/
def arrayRest? (value : Reader Toml) (s : List Char) : Option (Toml × List Char) := do
  let item (s : List Char) := do
    let (v, s) ← value (skipLines false s)
    return (v, skipLines false s)
  let (items, s) := separated item s
  let s := if items.isEmpty then s else (literal [','] s).getD s
  let s ← literal [']'] (skipLines false s)
  return (.array items, s)

/-- The pairs of an inline table and its closing brace. -/
def tableRest? (value : Reader Toml) (s : List Char) : Option (Toml × List Char) := do
  let (pairs, s) := separated (pair? value) s
  let s ← literal ['\x7d'] (skipSpaces s)
  let made ← addPairs pairs ⟨.inline, []⟩
  return (.table .inline made.entries, s)

/-- A value without inner values. -/
def scalar? (s : List Char) : Option (Toml × List Char) :=
  match s with
  | 't' :: 'r' :: 'u' :: 'e' :: rest => some (.boolean true, rest)
  | 'f' :: 'a' :: 'l' :: 's' :: 'e' :: rest => some (.boolean false, rest)
  | '\x22' :: _ | '\x27' :: _ => (string? s).map fun (content, rest) => (.text content, rest)
  | _ => (moment? s).or (number? s)

/-- A value with at most so many arrays and tables inside one another. -/
def value? : Nat → Reader Toml
  | room + 1, '[' :: s => arrayRest? (value? room) s
  | room + 1, '\x7b' :: s => tableRest? (value? room) s
  | 0, '[' :: _ | 0, '\x7b' :: _ => none
  | _, s => scalar? s

/-- What a line holds. -/
inductive Line where
  | blank
  | pair (p : Pair)
  | header (h : Header)

/-- A header behind its opening brackets. -/
def header? (element : Bool) (closing : List Char) (s : List Char) : Option (Line × List Char) := do
  let (path, s) ← key? s
  return (.header ⟨path, element⟩, ← literal closing s)

/-- The content of a line. -/
def content? : Reader Line
  | '[' :: '[' :: s => header? true [']', ']'] s
  | '[' :: s => header? false [']'] s
  | '#' :: s => some (.blank, '#' :: s)
  | '\n' :: s => some (.blank, '\n' :: s)
  | s => (pair? (value? maxNesting) s).map fun (p, rest) => (.pair p, rest)

/-- A line, where the text is not at its end. -/
def line? (s : List Char) : Option (Line × List Char) := do
  match skipSpaces s with
  | [] => none
  | s =>
    let (line, s) ← content? s
    return (line, ← endLine? s)

/-- Splits lines into the pairs before the first header and the sections of the headers, from the
last line to the first. -/
def sections : List Line → List Pair × List (Header × List Pair)
  | [] => ([], [])
  | line :: lines =>
    let (pairs, parts) := sections lines
    match line with
    | .blank => (pairs, parts)
    | .pair p => (p :: pairs, parts)
    | .header h => ([], (h, pairs) :: parts)

/-- The entries of a document. A byte order mark in front does not count. -/
def read? (source : String) : Option Entries := do
  let text := match source.toList with
    | '\uFEFF' :: s => s
    | s => s
  let (lines, rest) := collect line? (unixLines [] text)
  if !(skipSpaces rest).isEmpty then none
  else
    let (pairs, parts) := sections lines
    let root ← addPairs pairs ⟨.header, []⟩
    return (← parts.foldlM addSection root).entries

end DecayForest.Toml
