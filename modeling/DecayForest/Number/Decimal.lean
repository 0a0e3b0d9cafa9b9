/-!
# Decimal numerals

`Decimal` is a natural number of units of a power of ten. `Decimal.plain` writes it positionally,
without an exponent, and `Decimal.nearest` is the binary64 number nearest to it.
-/

namespace DecayForest.Number

/-- The number `digits * 10 ^ exponent`. -/
structure Decimal where
  digits : Nat
  exponent : Int
deriving DecidableEq, Repr

namespace Decimal

/-- The number that a run of decimal digits denotes. -/
def natOfDigits (ds : List Char) : Nat :=
  ds.foldl (fun n c => 10 * n + (c.toNat - '0'.toNat)) 0

/-- The decimal digits of a number, most significant first. -/
def digitsOf (n : Nat) : List Char :=
  Nat.toDigits 10 n

/-- The position of the leading digit: the number lies below `10 ^ d.magnitude`. -/
def magnitude (d : Decimal) : Int :=
  (digitsOf d.digits).length + d.exponent

/-- The binary64 number nearest to a decimal, ties to even. Numbers that are certain to overflow
or to vanish are told by their magnitude, so no huge power of ten is formed. -/
def nearest (d : Decimal) : Float :=
  if d.digits = 0 then 0
  else if 310 < d.magnitude then 1 / 0
  else if d.magnitude < -330 then 0
  else Float.ofScientific d.digits (d.exponent < 0) d.exponent.natAbs

/-- Moves trailing zeros of the digits into the exponent, at most `fuel` of them. -/
def stripZeros : Nat → Decimal → Decimal
  | 0, d => d
  | fuel + 1, d =>
    if d.digits % 10 = 0 then stripZeros fuel ⟨d.digits / 10, d.exponent + 1⟩ else d

/-- Inserts a decimal point before the last `places` digits, with zeros in front where the digits
do not reach. -/
def withPoint (places : Nat) (ds : List Char) : List Char :=
  let padded := List.replicate (places + 1 - ds.length) '0' ++ ds
  padded.take (padded.length - places) ++ '.' :: padded.drop (padded.length - places)

/-- The positional text of a decimal: zeros are appended for a positive exponent, and a point is
set for a negative one. -/
def plain (d : Decimal) : List Char :=
  if 0 ≤ d.exponent then digitsOf d.digits ++ List.replicate d.exponent.toNat '0'
  else withPoint d.exponent.natAbs (digitsOf d.digits)

end Decimal

end DecayForest.Number
