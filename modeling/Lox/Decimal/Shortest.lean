/-
The shortest decimal that reads back as a given positive binary fraction.

A `Dyadic` is a number `significand * 2 ^ exponent`.  The reals that round to it
form its `Basin`; `Dyadic.shortest` is a decimal inside the basin with as few
digits as possible:

* candidates are the two neighbours of the value among the multiples of a power
  of ten;
* the greatest power of ten with a candidate in the basin wins; of two candidates
  the nearer one is taken, and the upper one when both are equally near.

All arithmetic is on natural numbers.  A `Grid` is fine enough for seventeen
digits, which tell all doubles apart; the basin and all candidates are measured
in its steps, so nothing is rounded.
-/

namespace Lox.Decimal

/-- The number `significand * 2 ^ exponent`. -/
structure Dyadic where
  significand : Nat
  exponent : Int
  deriving DecidableEq, Repr

/-- The magnitude of a finite double, read from its bits: eleven exponent bits,
then fifty-two fraction bits below an implicit one. -/
def Dyadic.ofBits (bits : UInt64) : Dyadic :=
  let field : Nat := bits.toNat / Nat.pow 2 52 % Nat.pow 2 11
  let fraction := bits.toNat % Nat.pow 2 52
  if field = 0 then ⟨fraction, -1074⟩ else ⟨Nat.pow 2 52 + fraction, field - 1075⟩

/-- The decimal `coefficient / 10 ^ places`; negative `places` stand for
trailing zeros. -/
structure Numeral where
  coefficient : Nat
  places : Int
  deriving DecidableEq, Repr

/-- The reals that round to one double.  They lie between `low` and `high` over
`denominator`, and the two ends belong to them when `closed` holds. -/
structure Basin where
  low : Nat
  value : Nat
  high : Nat
  denominator : Nat
  closed : Bool
  deriving DecidableEq, Repr

/-- Half a unit in the last place to either side, in quarters of that unit.  Below
a power of two the next double is twice as near, so the lower half is halved. -/
def Dyadic.basin (d : Dyadic) : Basin :=
  let scale := Nat.pow 2 (d.exponent - 2).toNat
  let lower := if d.significand = Nat.pow 2 52 ∧ d.exponent ≠ -1074 then 1 else 2
  { low := (4 * d.significand - lower) * scale
    value := 4 * d.significand * scale
    high := (4 * d.significand + 2) * scale
    denominator := Nat.pow 2 (2 - d.exponent).toNat
    closed := d.significand % 2 = 0 }

/-- A basin on the multiples of `10 ^ (-places)`: the steps from `least` to
`greatest` lie in it, and its value is `value / unit` steps. -/
structure Grid where
  places : Int
  least : Nat
  greatest : Nat
  value : Nat
  unit : Nat
  deriving DecidableEq, Repr

/-- The quotient, rounded up. -/
def ceilDiv (n d : Nat) : Nat :=
  (n + d - 1) / d

/-- A basin on the multiples of `10 ^ (-places)`. -/
def Basin.grid (b : Basin) (places : Int) : Grid :=
  let raise := Nat.pow 10 places.toNat
  let unit := b.denominator * Nat.pow 10 (-places).toNat
  { places := places
    least := if b.closed then ceilDiv (b.low * raise) unit else b.low * raise / unit + 1
    greatest := if b.closed then b.high * raise / unit else ceilDiv (b.high * raise) unit - 1
    value := b.value * raise
    unit := unit }

/-- Places for which the value has seventeen to nineteen digits.  A power of two
has three tenths as many decimal digits as binary ones, more exactly `0.30103`. -/
def Basin.finePlaces (b : Basin) : Int :=
  17 - ((b.value.log2 : Int) - b.denominator.log2) * 30103 / 100000

namespace Grid

/-- Does this many steps lie in the basin? -/
def holds (g : Grid) (steps : Nat) : Bool :=
  g.least ≤ steps && steps ≤ g.greatest

/-- The better neighbour of the value among the multiples of `stride` steps, if it
is in the basin. -/
def candidate? (g : Grid) (stride : Nat) : Option Nat :=
  let below := g.value / g.unit / stride * stride
  let above := below + stride
  match g.holds below, g.holds above with
  | true, true => some (if 2 * g.value < (below + above) * g.unit then below else above)
  | true, false => some below
  | false, true => some above
  | false, false => none

/-- The exponents of the strides, from the greatest. -/
def strides : List Nat :=
  [18, 17, 16, 15, 14, 13, 12, 11, 10, 9, 8, 7, 6, 5, 4, 3, 2, 1, 0]

/-- The candidate with the greatest stride.  A single step is always fine enough,
so the value rounded down, which ends the search, is not reached. -/
def shortest (g : Grid) : Numeral :=
  ⟨(strides.findSome? fun n => g.candidate? (Nat.pow 10 n)).getD (g.value / g.unit), g.places⟩

end Grid

/-- The shortest decimal that rounds to the number. -/
def Dyadic.shortest (d : Dyadic) : Numeral :=
  let b := d.basin
  (b.grid b.finePlaces).shortest

end Lox.Decimal
