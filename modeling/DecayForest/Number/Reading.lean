import DecayForest.Number.Decimal
/-!
# Reading numbers

`read?` reads a binary64 number: an optional sign, then `inf`, `infinity` or `nan` in any letter
case, or decimal digits with at most one point among or beside them and an optional exponent. At
least one digit is needed, and nothing may follow.
-/

namespace DecayForest.Number

/-- An optional sign: whether it is negative, and what follows it. -/
def readSign : List Char → Bool × List Char
  | '-' :: s => (true, s)
  | '+' :: s => (false, s)
  | s => (false, s)

/-- The value of an exponent part, which is `0` where there is none. -/
def readExponent? : List Char → Option Int
  | [] => some 0
  | c :: s =>
    let (negative, ds) := readSign s
    if (c == 'e' || c == 'E') && !ds.isEmpty && ds.all Char.isDigit then
      let n : Int := Decimal.natOfDigits ds
      some (if negative then -n else n)
    else none

/-- An unsigned decimal numeral. -/
def readDecimal? (s : List Char) : Option Decimal :=
  let whole := s.takeWhile Char.isDigit
  let rest := s.dropWhile Char.isDigit
  let (part, tail) := match rest with
    | '.' :: r => (r.takeWhile Char.isDigit, r.dropWhile Char.isDigit)
    | r => ([], r)
  if whole.isEmpty && part.isEmpty then none
  else (readExponent? tail).map fun e =>
    ⟨Decimal.natOfDigits (whole ++ part), e - part.length⟩

/-- An unsigned number. -/
def readMagnitude? (s : List Char) : Option Float :=
  let word := s.map Char.toLower
  if word = "inf".toList ∨ word = "infinity".toList then some (1 / 0)
  else if word = "nan".toList then some (0 / 0)
  else (readDecimal? s).map Decimal.nearest

/-- The number that the whole of a text denotes. -/
def read? (s : List Char) : Option Float :=
  let (negative, rest) := readSign s
  (readMagnitude? rest).map fun x => if negative then -x else x

end DecayForest.Number
