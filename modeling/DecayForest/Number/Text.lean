import DecayForest.Number.Shortest
/-!
# Texts of numbers

`plain` writes a binary64 number with the fewest digits that read back, positionally and without an
exponent. `fixed` writes it with a set number of decimal places. Both keep the sign of zero and
write `NaN`, `inf` and `-inf`.
-/

namespace DecayForest.Number

/-- A number with its sign in front. The text of the magnitude is asked for finite numbers. -/
def signed (x : Float) (magnitude : Binary → List Char) : String :=
  if x.isNaN then "NaN"
  else
    let sign := if x.toBits >>> 63 = 1 then "-" else ""
    if x.isInf then sign ++ "inf"
    else sign ++ String.ofList (magnitude (Binary.ofBits (x.toBits &&& 0x7FFFFFFFFFFFFFFF)))

/-- The number with the fewest digits that read back. -/
def plain (x : Float) : String :=
  signed x fun b => if b.mantissa = 0 then ['0'] else b.shortest.plain

/-- The number rounded to `places` decimal places. -/
def fixed (places : Nat) (x : Float) : String :=
  signed x fun b =>
    if places = 0 then Decimal.digitsOf (b.scaled 0)
    else Decimal.withPoint places (Decimal.digitsOf (b.scaled places))

end DecayForest.Number
