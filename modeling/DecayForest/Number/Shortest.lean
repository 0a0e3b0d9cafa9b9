import DecayForest.Number.Decimal
/-!
# Shortest digits

`Binary` is an exact positive binary64 number. `Binary.shortest` is the decimal with the fewest
digits that lies among the reals which round to it; of several, the nearest, and the upper one if
two are equally near. `Binary.scaled` rounds to a fixed number of places, with ties to even.
-/

namespace DecayForest.Number

/-- The number `mantissa * 2 ^ exponent`. -/
structure Binary where
  mantissa : Nat
  exponent : Int
  /-- The gap to the number below is half of the gap to the number above. -/
  narrowBelow : Bool
deriving DecidableEq, Repr

namespace Binary

/-- The magnitude of a finite binary64 number, from its bits. -/
def ofBits (bits : UInt64) : Binary :=
  let e := (bits >>> 52 &&& 0x7FF).toNat
  let m := (bits &&& 0xFFFFFFFFFFFFF).toNat
  if e = 0 then ⟨m, -1074, false⟩ else ⟨Nat.pow 2 52 + m, e - 1075, m = 0 ∧ 1 < e⟩

/-- A power of two or ten split into a numerator and a denominator. -/
def fraction (base : Nat) (e : Int) : Nat × Nat :=
  if 0 ≤ e then (base.pow e.toNat, 1) else (1, base.pow e.natAbs)

/-- The multiple of `10 ^ g` that stands for the number on that grid: one of its two neighbours
there, if it rounds to the number. The ends of the rounding interval belong to it when the mantissa
is even. -/
def onGrid? (b : Binary) (g : Int) : Option Decimal :=
  -- all quantities are multiplied by four times the denominators of both powers
  let (two, twoBelow) := fraction 2 b.exponent
  let (ten, tenBelow) := fraction 10 g
  let unit := two * tenBelow
  let step := 4 * ten * twoBelow
  let value := 4 * b.mantissa * unit
  let low := value - (if b.narrowBelow then 1 else 2) * unit
  let high := value + 2 * unit
  let inside (d : Nat) : Bool :=
    if b.mantissa % 2 = 0 then low ≤ d * step && d * step ≤ high
    else low < d * step && d * step < high
  let d := value / step
  if inside d then
    if inside (d + 1) && (2 * d + 1) * step ≤ 2 * value then some ⟨d + 1, g⟩ else some ⟨d, g⟩
  else if inside (d + 1) then some ⟨d + 1, g⟩
  else none

/-- The exact value as a decimal. -/
def exact (b : Binary) : Decimal :=
  if 0 ≤ b.exponent then ⟨b.mantissa * Nat.pow 2 b.exponent.toNat, 0⟩
  else ⟨b.mantissa * Nat.pow 5 b.exponent.natAbs, b.exponent⟩

/-- An exponent such that the number lies below that power of ten and not far below. -/
def decimalScale (b : Binary) : Int :=
  ((b.mantissa.log2 + b.exponent + 1) * 30103).fdiv 100000 + 1

/-- The decimal with the fewest digits that rounds to the number. Grids are tried from the coarsest
one on; the twentieth is finer than the seventeen digits that always suffice. -/
def shortest (b : Binary) : Decimal :=
  let found := (List.range 20).findSome? fun i : Nat => b.onGrid? (b.decimalScale - i)
  (found.getD b.exact).stripZeros 20

/-- The quotient rounded to the nearest natural number, ties to even. -/
def roundQuotient (num den : Nat) : Nat :=
  let q := num / den
  let r := num % den
  if 2 * r < den then q else if den < 2 * r then q + 1 else q + q % 2

/-- The number in units of `10 ^ -places`, rounded to the nearest, ties to even. -/
def scaled (b : Binary) (places : Nat) : Nat :=
  let (two, twoBelow) := fraction 2 b.exponent
  roundQuotient (b.mantissa * two * Nat.pow 10 places) twoBelow

end Binary

end DecayForest.Number
