/-!
# Shortest decimals of doubles

A finite double `m · 2^q` stands for every real that rounds to it. `Decimal.shortest` picks, among
the decimals in that interval, one with the fewest digits, and of those the nearest to the double.
Everything is compared exactly, over `Nat`.
-/

namespace LoxLang

/-- The decimal `coefficient · 10 ^ exponent`. -/
structure Decimal where
  coefficient : Nat
  exponent : Int
deriving DecidableEq, Inhabited

namespace Decimal

/-- The decimal digits of the coefficient, most significant first. -/
def digits (d : Decimal) : List Char :=
  Nat.toDigits 10 d.coefficient

/-- The place of the decimal point: the value is `0.d₁…dₖ · 10 ^ point`. -/
def point (d : Decimal) : Int :=
  d.exponent + d.digits.length

end Decimal

/-! ### The reals that round to a double

A decimal names a double if it lies in the interval. On a grid that is fine enough there is one, and the coarsest such
grid gives the fewest digits. -/

/-- The double `m · 2 ^ q` (with `0 < m`) as a fraction `value / unit`, beside the ends `low / unit` and
`high / unit` of the reals that round to it. The ends belong to the interval iff `closed`. -/
structure RoundingInterval where
  low : Nat
  value : Nat
  high : Nat
  unit : Nat
  closed : Bool

/-- The interval of `m · 2 ^ q`. Below the least significand of a binade (`narrow`) the next double is
half as far away. -/
def RoundingInterval.of (m : Nat) (q : Int) (narrow : Bool) : RoundingInterval :=
  let scale := Nat.pow 2 (q - 2).toNat
  { low := (4 * m - if narrow then 1 else 2) * scale
    value := 4 * m * scale
    high := (4 * m + 2) * scale
    unit := Nat.pow 2 (2 - q).toNat
    closed := m % 2 == 0 }

namespace RoundingInterval

/-- Whether `c · 10 ^ p` rounds to the double. -/
def holds (i : RoundingInterval) (c : Nat) (p : Int) : Bool :=
  let shrink := Nat.pow 10 (-p).toNat
  let x := c * Nat.pow 10 p.toNat * i.unit
  if i.closed then i.low * shrink ≤ x && x ≤ i.high * shrink
  else i.low * shrink < x && x < i.high * shrink

/-- The decimal on the grid of step `10 ^ p` next to the double that rounds to it; of two the nearer one,
of two equally near the even one. -/
def onGrid? (i : RoundingInterval) (p : Int) : Option Decimal :=
  let num := i.value * Nat.pow 10 (-p).toNat
  let den := i.unit * Nat.pow 10 p.toNat
  let c := num / den
  let twice := 2 * (num % den)
  match i.holds c p, i.holds (c + 1) p with
  | true, false => some ⟨c, p⟩
  | false, true => some ⟨c + 1, p⟩
  | true, true =>
    some ⟨if twice < den || (twice == den && c % 2 == 0) then c else c + 1, p⟩
  | false, false => none

/-- The first hit on the grids `10 ^ p`, `10 ^ (p - 1)`, …, at most `grids` of them. -/
def onGrids (i : RoundingInterval) : Nat → Int → Decimal
  | 0, p => ⟨i.value * Nat.pow 10 (-p).toNat / (i.unit * Nat.pow 10 p.toNat), p⟩
  | grids + 1, p => (i.onGrid? p).getD (i.onGrids grids (p - 1))

/-- A power of ten above the double: `2 ^ b ≤ 10 ^ ⌈b · 0.30103⌉`. -/
def topExponent (i : RoundingInterval) : Int :=
  (((i.value.log2 : Int) - i.unit.log2 + 1) * 30103) / 100000 + 1

end RoundingInterval

/-! ### Doubles

A double is taken apart by its bits, so that the search is one on integers. -/

/-- What a double is: no number, an infinity, a zero or `±m · 2 ^ q` with `0 < m`. -/
inductive FloatShape where
  | nan
  | infinite (negative : Bool)
  | zero (negative : Bool)
  | finite (negative : Bool) (m : Nat) (q : Int) (narrow : Bool)
deriving DecidableEq

/-- Reads the sign, the exponent and the fraction off the 64 bits. -/
def FloatShape.ofBits (bits : UInt64) : FloatShape :=
  let n : Nat := bits.toNat
  let negative := n / Nat.pow 2 63 == 1
  let exponent : Nat := n / Nat.pow 2 52 % Nat.pow 2 11
  let fraction : Nat := n % Nat.pow 2 52
  if exponent = 2047 then
    if fraction = 0 then .infinite negative else .nan
  else if exponent = 0 then
    if fraction = 0 then .zero negative else .finite negative fraction (-1074) false
  else
    .finite negative (Nat.pow 2 52 + fraction) ((exponent : Int) - 1075) (fraction == 0 && exponent != 1)

/-- The shape of a double. -/
def FloatShape.of (x : Float) : FloatShape :=
  .ofBits x.toBits

/-- The decimal with the fewest digits that rounds to `m · 2 ^ q`. Seventeen digits always suffice, and
the search starts at most two grids above the first digit. -/
def Decimal.shortest (m : Nat) (q : Int) (narrow : Bool) : Decimal :=
  let i := RoundingInterval.of m q narrow
  i.onGrids 21 i.topExponent

end LoxLang
