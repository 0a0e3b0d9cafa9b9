import DecayForest.Grammar.Outcome
/-!
# Identifiers

A bare identifier is a run of letters, digits, dashes and some punctuation that stops before an
arrow; only a dash that comes first is taken in any case. Any other name stands in double quotes,
without escapes and on one line. `written?` gives the spelling of a name, and numerals are
identifiers too.
-/

namespace DecayForest.Grammar

/-- The punctuation of bare identifiers, dashes apart. -/
def punctuation : List Char :=
  ['\x60', '~', '!', '@', '$', '%', '^', '&', '*', '(', ')', '_', '+', '|', '\\', '/', '<', '>',
   '.', ':', '?']

/-- Whether a bare identifier may hold a character in any place. -/
def isIdChar (c : Char) : Bool :=
  c.isAlphanum || punctuation.contains c

/-- The longest run of identifier characters and dashes that stops before an arrow, after the
characters `taken` in reverse; and what follows it. -/
def runFrom (taken : List Char) : List Char → List Char × List Char
  | '-' :: '>' :: s => (taken.reverse, '-' :: '>' :: s)
  | c :: s =>
    if isIdChar c || c = '-' then runFrom (c :: taken) s else (taken.reverse, c :: s)
  | [] => (taken.reverse, [])

/-- A bare identifier. -/
def bareId : List Char → Outcome String
  | '-' :: '>' :: s => .read "-" ('>' :: s)
  | s =>
    let (word, rest) := runFrom [] s
    if word.isEmpty then .miss .identifier s else .read (String.ofList word) rest

/-- Whether a quoted identifier may hold a character. -/
def isQuotable (c : Char) : Bool :=
  c != '\x22' && c != '\n' && c != '\r'

/-- A quoted identifier: the text between the quotes. -/
def quotedId : List Char → Outcome String
  | '\x22' :: s =>
    match s.dropWhile isQuotable with
    | '\x22' :: rest => .read (String.ofList (s.takeWhile isQuotable)) rest
    | rest => .miss .closingQuote rest
  | s => .miss (.character '\x22') s

/-- A bare or quoted identifier. -/
def identifier : List Char → Outcome String
  | '\x22' :: s => quotedId ('\x22' :: s)
  | s => bareId s

/-- Whether an outcome took the whole text. -/
def Outcome.all {α : Type} : Outcome α → Bool
  | .read _ [] => true
  | _ => false

/-- Whether the whole text is one identifier. -/
def isIdentifier (s : String) : Bool :=
  (identifier s.toList).all

/-- Whether a name can stand without quotes. -/
def isBare (s : String) : Bool :=
  (bareId s.toList).all

/-- The words that open a default, in any letter case. -/
def keywords : List String := ["particle", "decay"]

/-- Whether a name is spelled like a keyword. -/
def isKeyword (s : String) : Bool :=
  keywords.any fun k => s.toList.map Char.toLower = k.toList

/-- The spelling of a name in a document: the name itself where that reads back, else the name in
quotes. A name with a quote or a line break has none. -/
def written? (s : String) : Option String :=
  if isBare s && !isKeyword s then some s
  else if s.toList.all isQuotable then some ("\"" ++ s ++ "\"")
  else none

theorem runFrom_suffix (taken s : List Char) : (runFrom taken s).2 <:+ s := by
  fun_induction runFrom taken s with
  | case2 taken c s _ _ ih => exact ih.trans (List.suffix_cons c s)
  | case1 | case3 | case4 => exact List.suffix_refl _

theorem bareId_within (s : List Char) : (bareId s).Within s := by
  unfold bareId
  split
  · exact List.suffix_cons _ _
  · dsimp only
    split
    · exact List.suffix_refl _
    · exact runFrom_suffix [] _

theorem quotedId_within (s : List Char) : (quotedId s).Within s := by
  unfold quotedId
  split
  · next s =>
    have h : s.dropWhile isQuotable <:+ '\x22' :: s :=
      (List.dropWhile_suffix _).trans (List.suffix_cons _ _)
    split
    · next heq => exact (List.suffix_cons _ _).trans (heq ▸ h)
    · exact h
  · exact List.suffix_refl _

theorem identifier_within (s : List Char) : (identifier s).Within s := by
  unfold identifier
  split
  · exact quotedId_within _
  · exact bareId_within _

end DecayForest.Grammar
