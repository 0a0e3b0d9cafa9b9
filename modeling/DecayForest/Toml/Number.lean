import DecayForest.Number.Decimal
import DecayForest.Toml.Basic
/-!
# TOML numbers and moments

Integers are decimal, hexadecimal, octal or binary and fit 64 bits with a sign. Floats have a
fraction or an exponent. Single underscores may stand between digits. A moment is a date, a time, or
both with or without an offset.
-/

namespace DecayForest.Toml

/-- The rest of a run of digits, after the digits `taken` in reverse. -/
def runFrom (isDigit : Char → Bool) (taken : List Char) : Reader (List Char)
  | '_' :: c :: s => if isDigit c then runFrom isDigit (c :: taken) s else none
  | c :: s =>
    if isDigit c then runFrom isDigit (c :: taken) s
    else if c = '_' then none
    else some (taken.reverse, c :: s)
  | [] => some (taken.reverse, [])

/-- A run of digits, without the underscores between them. -/
def run? (isDigit : Char → Bool) : Reader (List Char)
  | c :: s => if isDigit c then runFrom isDigit [c] s else none
  | [] => none

/-- The value of a digit. -/
def digitValue (c : Char) : Nat :=
  if c.isDigit then c.toNat - 0x30
  else if 'a' ≤ c && c ≤ 'z' then c.toNat - 0x57
  else c.toNat - 0x37

/-- Whether a character is a digit of a base up to sixteen. -/
def isDigitOf (base : Nat) (c : Char) : Bool :=
  (c.isDigit || ('a' ≤ c && c ≤ 'f') || ('A' ≤ c && c ≤ 'F')) && digitValue c < base

/-- An integer in the range of 64 bits with a sign. -/
def bounded (n : Int) : Option Toml :=
  if Int64.minValue.toInt ≤ n && n ≤ Int64.maxValue.toInt then some (.integer n) else none

/-- The digits of an integer with a base other than ten. -/
def based? (base : Nat) (s : List Char) : Option (Toml × List Char) := do
  let (ds, rest) ← run? (isDigitOf base) s
  let n := ds.foldl (fun n c => base * n + digitValue c) 0
  return (← bounded n, rest)

/-- A sign, and whether it is negative. -/
def sign : List Char → Bool × List Char
  | '-' :: s => (true, s)
  | '+' :: s => (false, s)
  | s => (false, s)

/-- The digits of a decimal integer: one zero, or a run that starts with another digit. -/
def whole? : Reader (List Char)
  | '0' :: s => some (['0'], s)
  | s => run? Char.isDigit s

/-- A fraction, which may be absent. -/
def fraction? : Reader (List Char)
  | '.' :: s => run? Char.isDigit s
  | s => some ([], s)

/-- An exponent, where there is one. -/
def exponent? : Reader (Option Int)
  | c :: s =>
    if c = 'e' || c = 'E' then do
      let (negative, s) := sign s
      let (ds, rest) ← run? Char.isDigit s
      let n : Int := Number.Decimal.natOfDigits ds
      return (some (if negative then -n else n), rest)
    else some (none, c :: s)
  | [] => some (none, [])

/-- A decimal number. A float that is too large is refused, unless it is negative. -/
def decimal? (s : List Char) : Option (Toml × List Char) := do
  let (negative, s) := sign s
  let (whole, s) ← whole? s
  let (part, s) ← fraction? s
  let (exponent, s) ← exponent? s
  if part.isEmpty && exponent.isNone then
    let n : Int := Number.Decimal.natOfDigits whole
    return (← bounded (if negative then -n else n), s)
  else
    let digits := Number.Decimal.natOfDigits (whole ++ part)
    let x := Number.Decimal.nearest ⟨digits, exponent.getD 0 - part.length⟩
    if negative then return (.float (-x), s)
    else if x.isInf then none
    else return (.float x, s)

/-- A number that is written as a word. -/
def special? (s : List Char) : Option (Toml × List Char) :=
  let (negative, s) := sign s
  let signed (x : Float) := Toml.float (if negative then -x else x)
  match s with
  | 'i' :: 'n' :: 'f' :: rest => some (signed (1 / 0), rest)
  | 'n' :: 'a' :: 'n' :: rest => some (signed (0 / 0), rest)
  | _ => none

/-- A number. -/
def number? : Reader Toml
  | '0' :: 'x' :: s => based? 16 s
  | '0' :: 'o' :: s => based? 8 s
  | '0' :: 'b' :: s => based? 2 s
  | s => (special? s).or (decimal? s)

/-! ### Moments -/

/-- A number of so many digits, within bounds. -/
def fixed? (count low high : Nat) (s : List Char) : Option (Nat × List Char) :=
  let ds := s.take count
  let n := Number.Decimal.natOfDigits ds
  if ds.length = count && ds.all Char.isDigit && low ≤ n && n ≤ high then some (n, s.drop count)
  else none

/-- A number with zeros in front up to a width. -/
def padded (width n : Nat) : String :=
  let ds := Number.Decimal.digitsOf n
  String.ofList (List.replicate (width - ds.length) '0' ++ ds)

/-- The number of days of a month. -/
def daysIn (year month : Nat) : Nat :=
  if month = 2 then
    if year % 4 = 0 && (year % 100 != 0 || year % 400 = 0) then 29 else 28
  else if [4, 6, 9, 11].contains month then 30
  else 31

/-- A date. -/
def date? (s : List Char) : Option (String × List Char) := do
  let (year, s) ← fixed? 4 0 9999 s
  let s ← literal ['-'] s
  let (month, s) ← fixed? 2 1 12 s
  let s ← literal ['-'] s
  let (day, s) ← fixed? 2 1 (daysIn year month) s
  return (padded 4 year ++ "-" ++ padded 2 month ++ "-" ++ padded 2 day, s)

/-- A fraction of a second, to nine places and without zeros at its end. -/
def subsecond : List Char → String × List Char
  | '.' :: s =>
    let ds := s.takeWhile Char.isDigit
    if ds.isEmpty then ("", '.' :: s)
    else
      let kept := ((ds.take 9).reverse.dropWhile (· == '0')).reverse
      (if kept.isEmpty then "" else "." ++ String.ofList kept, s.dropWhile Char.isDigit)
  | s => ("", s)

/-- A time of the day. -/
def time? (s : List Char) : Option (String × List Char) := do
  let (hour, s) ← fixed? 2 0 23 s
  let s ← literal [':'] s
  let (minute, s) ← fixed? 2 0 59 s
  let s ← literal [':'] s
  let (second, s) ← fixed? 2 0 60 s
  let (part, s) := subsecond s
  return (padded 2 hour ++ ":" ++ padded 2 minute ++ ":" ++ padded 2 second ++ part, s)

/-- An offset from the universal time, which may be absent. No offset has a negative sign and no
value. -/
def offset (s : List Char) : String × List Char :=
  let signed (negative : Bool) (s : List Char) : Option (String × List Char) := do
    let (hour, s) ← fixed? 2 0 23 s
    let s ← literal [':'] s
    let (minute, s) ← fixed? 2 0 59 s
    let sign := if negative && hour + minute != 0 then "-" else "+"
    return (sign ++ padded 2 hour ++ ":" ++ padded 2 minute, s)
  match s with
  | 'Z' :: rest | 'z' :: rest => ("Z", rest)
  | '+' :: rest => (signed false rest).getD ("", s)
  | '-' :: rest => (signed true rest).getD ("", s)
  | _ => ("", s)

/-- A time with an offset behind a date. -/
def timeOfDate : List Char → String × List Char
  | c :: s =>
    if c = 'T' || c = 't' || c = ' ' then
      match time? s with
      | some (time, rest) =>
        let (shift, rest) := offset rest
        ("T" ++ time ++ shift, rest)
      | none => ("", c :: s)
    else ("", c :: s)
  | [] => ("", [])

/-- A date, a time, or both. -/
def moment? (s : List Char) : Option (Toml × List Char) :=
  match date? s with
  | some (date, rest) =>
    let (time, rest) := timeOfDate rest
    some (.moment (date ++ time), rest)
  | none => (time? s).map fun (time, rest) => (.moment time, rest)

end DecayForest.Toml
