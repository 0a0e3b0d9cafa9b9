import DecayForest.Text.Alphanumeric
import DecayForest.Text.Pieces
/-!
# Paths

Paths are texts with slashes. `parent?` and `join` take them apart and put them together, and
`expand` replaces a tilde in front by the home directory and names behind dollar signs by the values
of variables.
-/

namespace DecayForest.Path

/-- Whether a path starts at the root. -/
def isAbsolute (path : String) : Bool :=
  path.toList.head? == some '/'

/-- A path inside a directory. An absolute path stays as it is. -/
def join (directory path : String) : String :=
  if isAbsolute path || directory.isEmpty then path
  else if directory.toList.getLast? == some '/' then directory ++ path
  else directory ++ "/" ++ path

/-- The segments of a text between slashes. -/
def segments (s : List Char) : List (List Char) :=
  Text.pieces '/' s

/-- Whether a segment stays where it is. -/
def isIdle (segment : List Char) : Bool :=
  segment = [] || segment = ['.']

/-- The segments up to the last one that leads somewhere. -/
def trimmed (parts : List (List Char)) : List (List Char) :=
  (parts.reverse.dropWhile isIdle).reverse

/-- The start of a path that is no segment of its own: a slash, or a dot before a slash or the
end. -/
def startLength : List Char → Nat
  | '/' :: _ | ['.'] | '.' :: '/' :: _ => 1
  | _ => 0

/-- The path without its last segment. The root and the empty path have none. -/
def parent? (path : String) : Option String :=
  let s := path.toList
  let start := s.take (startLength s)
  let parts := trimmed (segments (s.drop (startLength s)))
  if parts.isEmpty then if start = ['.'] then some "" else none
  else some (String.ofList (start ++ ['/'].intercalate (trimmed parts.dropLast)))

/-! ### Expansion -/

/-- The text before the first occurrence of `mark` and the text behind it, after the characters
`taken` in reverse. -/
def splitAtFrom (mark : List Char) (taken : List Char) : List Char → Option (List Char × List Char)
  | [] => none
  | c :: s =>
    if mark.isPrefixOf (c :: s) then some (taken.reverse, (c :: s).drop mark.length)
    else splitAtFrom mark (c :: taken) s

/-- The text before the first occurrence of `mark` and the text behind it. -/
def splitAt? (mark s : List Char) : Option (List Char × List Char) :=
  splitAtFrom mark [] s

/-- The value of what stands in braces: a name, or a name and a default behind `:-`. -/
def braced? (valueOf : String → Option String) (inside : List Char) : Option (List Char) :=
  match splitAt? [':', '-'] inside with
  | some (name@(_ :: _), fallback) =>
    some (((valueOf (String.ofList name)).map String.toList).getD fallback)
  | _ => (valueOf (String.ofList inside)).map String.toList

/-- What the front of a text stands for, and the rest. A dollar sign stands for itself where no name
follows, and two of them stand for one. -/
def expandItem (valueOf : String → Option String) :
    List Char → Option (List Char × List Char)
  | '$' :: '\x7b' :: s =>
    match splitAt? ['\x7d'] s with
    | none => some (['$', '\x7b'], s)
    | some (inside, rest) => (braced? valueOf inside).map (·, rest)
  | '$' :: '$' :: s => some (['$'], s)
  | '$' :: s =>
    let name := s.takeWhile Text.isWordChar
    if name.isEmpty then some (['$'], s)
    else (valueOf (String.ofList name)).map fun v => (v.toList, s.dropWhile Text.isWordChar)
  | c :: s => some ([c], s)
  | [] => some ([], [])

/-- The values of a text, after the characters `taken` in reverse. The text in front bounds how
often something is replaced. -/
def expandFrom (valueOf : String → Option String) :
    List Char → List Char → List Char → Option (List Char)
  | _, taken, [] => some taken.reverse
  | [], taken, s => some (taken.reverse ++ s)
  | _ :: bound, taken, s =>
    match expandItem valueOf s with
    | some (v, rest) => expandFrom valueOf bound (v.reverse ++ taken) rest
    | none => none

/-- Puts values in the place of names. There is no result if any name has no value. -/
def expandNames? (valueOf : String → Option String) (path : String) : Option String :=
  (expandFrom valueOf path.toList [] path.toList).map String.ofList

/-- Puts the home directory in the place of a tilde in front. -/
def expandTilde (home : Option String) (path : String) : String :=
  match path.toList, home with
  | ['~'], some home => home
  | '~' :: '/' :: rest, some home => home ++ "/" ++ String.ofList rest
  | _, _ => path

/-- Whether a path starts with a tilde. -/
def hasTilde (path : String) : Bool :=
  path.toList.head? == some '~'

/-- Expands names and a tilde, or the tilde alone if any name has no value. A tilde that comes from
a value stays. -/
def expand (valueOf : String → Option String) (home : Option String) (path : String) : String :=
  match expandNames? valueOf path with
  | some expanded => if hasTilde path then expandTilde home expanded else expanded
  | none => expandTilde home path

end DecayForest.Path
