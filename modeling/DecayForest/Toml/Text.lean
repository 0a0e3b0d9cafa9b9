import DecayForest.Toml.Basic
/-!
# TOML strings

A string stands in double quotes, with escapes, or in single quotes, without; three quotes on each
side let it run over several lines. `quoted` writes a string, in the plainest of these forms that
can hold it.
-/

namespace DecayForest.Toml

/-- Whether a character can stand in any string or comment as it is. -/
def isPrintable (c : Char) : Bool :=
  c = '\t' || (0x20 ≤ c.toNat && c.toNat ≠ 0x7F)

/-- The character with a code in hexadecimal digits, if it is one. -/
def coded? (digits : List Char) : Option Char := do
  let value ← digits.foldlM (fun n c => do
    let d ← if c.isDigit then some (c.toNat - 0x30)
      else if 'a' ≤ c && c ≤ 'f' then some (c.toNat - 0x57)
      else if 'A' ≤ c && c ≤ 'F' then some (c.toNat - 0x37)
      else none
    return 16 * n + d) 0
  if value.isValidChar then return Char.ofNat value else none

/-- A character given by `count` hexadecimal digits. -/
def codedItem (count : Nat) (s : List Char) : Option (Char × List Char) := do
  if (s.take count).length < count then none
  else return (← coded? (s.take count), s.drop count)

/-- What stands behind a backslash for a character. -/
def escape? : Reader Char
  | 'b' :: s => some ('\x08', s)
  | 't' :: s => some ('\t', s)
  | 'n' :: s => some ('\n', s)
  | 'f' :: s => some ('\x0c', s)
  | 'r' :: s => some ('\r', s)
  | '\x22' :: s => some ('\x22', s)
  | '\\' :: s => some ('\\', s)
  | 'u' :: s => codedItem 4 s
  | 'U' :: s => codedItem 8 s
  | _ => none

/-- A character of a string in double quotes. -/
def basicItem : Reader Char
  | '\\' :: s => escape? s
  | c :: s => if isPrintable c && c != '\x22' then some (c, s) else none
  | [] => none

/-- A character of a string in single quotes. -/
def literalItem : Reader Char
  | c :: s => if isPrintable c && c != '\x27' then some (c, s) else none
  | [] => none

/-- The rest of a string on one line, up to its closing quote. -/
def closed (item : Reader Char) (quote : Char) (s : List Char) : Option (String × List Char) :=
  match collect item s with
  | (cs, c :: rest) => if c = quote then some (String.ofList cs, rest) else none
  | (_, []) => none

/-- How many quotes a text starts with, at most five. -/
def quoteRun (quote : Char) (s : List Char) : Nat :=
  ((s.take 5).takeWhile (· == quote)).length

/-- Whether a text is blank up to the end of its first line, where another follows. -/
def endsLine (s : List Char) : Bool :=
  (s.dropWhile fun c => c == ' ' || c == '\t').head? == some '\n'

/-- A piece of a string over several lines: less than three quotes, a line break, or what `item`
takes. -/
def linesItem (item : Reader (List Char)) (quote : Char) : Reader (List Char)
  | '\n' :: s => some (['\n'], s)
  | c :: s =>
    if c = quote then if quoteRun quote (c :: s) < 3 then some ([c], s) else none
    else item (c :: s)
  | [] => none

/-- A piece of a string over several lines in double quotes. A backslash at the end of a line takes
away the line break and all blanks that follow it. -/
def basicPiece : Reader (List Char)
  | '\\' :: s =>
    if endsLine s then some ([], s.dropWhile fun c => c == ' ' || c == '\t' || c == '\n')
    else (escape? s).map fun (c, rest) => ([c], rest)
  | s => (basicItem s).map fun (c, rest) => ([c], rest)

/-- A piece of a string over several lines in single quotes. -/
def literalPiece (s : List Char) : Option (List Char × List Char) :=
  (literalItem s).map fun (c, rest) => ([c], rest)

/-- The rest of a string over several lines. A line break at its start does not count. Up to two
quotes in front of the closing ones belong to it. -/
def closedLines (item : Reader (List Char)) (quote : Char) (s : List Char) :
    Option (String × List Char) :=
  let s := match s with
    | '\n' :: s => s
    | s => s
  let (pieces, rest) := collect (linesItem item quote) s
  let quotes := quoteRun quote rest
  if quotes < 3 then none
  else some (String.ofList (pieces.flatten ++ List.replicate (quotes - 3) quote),
    rest.drop quotes)

/-- A string of one line. -/
def lineString? : Reader String
  | '\x22' :: s => closed basicItem '\x22' s
  | '\x27' :: s => closed literalItem '\x27' s
  | _ => none

/-- A string. -/
def string? : Reader String
  | '\x22' :: '\x22' :: '\x22' :: s => closedLines basicPiece '\x22' s
  | '\x27' :: '\x27' :: '\x27' :: s => closedLines literalPiece '\x27' s
  | s => lineString? s

/-! ### Writing -/

/-- Whether a character has to be written by a code or a letter of its own in every form. -/
def isControl (c : Char) : Bool :=
  c.toNat < 0x20 && c != '\t' && c != '\n' || c.toNat = 0x7F

/-- The most quotes in a row, with `run` of them before the text. -/
def longestRun (quote : Char) (run : Nat) : List Char → Nat
  | [] => run
  | c :: s => if c = quote then longestRun quote (run + 1) s else max run (longestRun quote 0 s)

/-- A code of four hexadecimal digits. -/
def code (c : Char) : List Char :=
  let digits := (Nat.toDigits 16 c.toNat).map Char.toUpper
  '\\' :: 'u' :: List.replicate (4 - digits.length) '0' ++ digits

/-- A character in double quotes. A line break is kept where `lines` is set. -/
def escaped (lines : Bool) (c : Char) : List Char :=
  if c = '\x08' then ['\\', 'b']
  else if c = '\t' then ['\\', 't']
  else if c = '\n' then if lines then ['\n'] else ['\\', 'n']
  else if c = '\x0c' then ['\\', 'f']
  else if c = '\r' then ['\\', 'r']
  else if c = '\\' then ['\\', '\\']
  else if isControl c then code c
  else [c]

/-- The content of a string in double quotes, in which at most `allowed` quotes in a row stand as
they are; `run` of them come before. -/
def basicContent (lines : Bool) (allowed run : Nat) : List Char → List Char
  | [] => []
  | c :: s =>
    if c = '\x22' then
      if run < allowed then c :: basicContent lines allowed (run + 1) s
      else '\\' :: c :: basicContent lines allowed 0 s
    else escaped lines c ++ basicContent lines allowed 0 s

/-- A string in a document. -/
def quoted (text : String) : String :=
  let s := text.toList
  let lines := s.contains '\n'
  let singles := longestRun '\x27' 0 s
  let doubles := longestRun '\x22' 0 s
  let control := s.any isControl
  let backslash := s.contains '\\'
  let opening := if lines then ['\n'] else []
  let three (quote : Char) := List.replicate 3 quote
  String.ofList <|
    if !control && !backslash && doubles = 0 && !lines then
      '\x22' :: basicContent false 0 0 s ++ ['\x22']
    else if !control && singles = 0 && !lines then '\x27' :: s ++ ['\x27']
    else if !control && !backslash && doubles ≤ 2 then
      three '\x22' ++ opening ++ basicContent true 2 0 s ++ three '\x22'
    else if !control && singles ≤ 2 then three '\x27' ++ opening ++ s ++ three '\x27'
    else if lines then three '\x22' ++ opening ++ basicContent true 2 0 s ++ three '\x22'
    else '\x22' :: basicContent false 0 0 s ++ ['\x22']

end DecayForest.Toml
