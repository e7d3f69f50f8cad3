import ElmWire.Decimal.Binary

/-!
# The shortest decimal that reads back

The text of a float has as few digits as possible: of all decimals that a correctly rounding
reader maps back to the float, one with the fewest digits, and of those the one nearest to it.

The decimals that read back fill an interval around the float, half way to its two neighbours;
the ends belong to it exactly when the mantissa is even.  On the grid of multiples of `10 ^ e`
only the two grid points around the float can be nearest, so `Interval.nearest?` looks at those
two, and `shortest` refines the grid one decimal place at a time until one of them lies in the
interval.  All comparisons are between natural numbers.

How the digits are then written (where positional notation ends, what an exponent looks like)
is not decided here but by a `Decimal.Style`.
-/

set_option autoImplicit false
namespace ElmWire.Decimal

/-- A positive decimal number, `digits · 10 ^ exponent`. -/
structure Digits where
  digits : Nat
  exponent : Int
  deriving Repr, DecidableEq

/-- Which of two equally near decimals is taken. -/
inductive Tie where
  | even
  | up
  deriving Repr, DecidableEq

/-- A positive number and the interval of reals that read back as it, all over one denominator. -/
structure Interval where
  low : Nat
  value : Nat
  high : Nat
  denominator : Nat
  /-- Whether the two ends belong to the interval. -/
  closed : Bool

namespace Interval

/-- The reals that round to the positive binary number `b`.  Quarters of the last place make
both half-way points whole numbers. -/
def ofBinary (b : Binary) : Interval :=
  let value := 4 * b.mantissa
  let low := if b.closerBelow then value - 1 else value - 2
  let unit := b.exponent - 2
  let scale := Nat.pow 2 unit.toNat
  { low := low * scale
    value := value * scale
    high := (value + 2) * scale
    denominator := Nat.pow 2 (-unit).toNat
    closed := b.mantissa % 2 == 0 }

/-- The same interval measured in units of `10 ^ e`. -/
def inUnits (i : Interval) (e : Int) : Interval :=
  let down := Nat.pow 10 (-e).toNat
  { i with
    low := i.low * down
    value := i.value * down
    high := i.high * down
    denominator := i.denominator * Nat.pow 10 e.toNat }

/-- Does the integer `k` lie in the interval? -/
def contains (i : Interval) (k : Nat) : Bool :=
  let point := k * i.denominator
  if i.closed then i.low ≤ point && point ≤ i.high else i.low < point && point < i.high

/-- The integer in the interval that is nearest to its value, found among the two around it. -/
def nearest? (tie : Tie) (i : Interval) : Option Nat :=
  let below := i.value / i.denominator
  let twice := 2 * (i.value % i.denominator)
  match i.contains below, i.contains (below + 1) with
  | false, false => none
  | true, false => some below
  | false, true => some (below + 1)
  | true, true =>
    if twice < i.denominator then some below
    else if i.denominator < twice then some (below + 1)
    else match tie with
      | .up => some (below + 1)
      | .even => some (if below % 2 = 0 then below else below + 1)

end Interval

/-- The number of decimal places by which `10` has to be raised to just not exceed
`numerator / denominator`, searched from the estimate `guess` upwards. -/
def magnitudeFrom (numerator denominator : Nat) : Nat → Int → Int
  | 0, guess => guess
  | fuel + 1, guess =>
    let next := guess + 1
    if denominator * Nat.pow 10 next.toNat ≤ numerator * Nat.pow 10 (-next).toNat
    then magnitudeFrom numerator denominator fuel next
    else guess

/-- The exponent of the leading decimal digit of a positive fraction.  The logarithm to base two
gives it up to one, `30102 / 100000` being a little less than the logarithm of two. -/
def magnitude (numerator denominator : Nat) : Int :=
  let bits : Int := (numerator.log2 : Int) - denominator.log2 - 1
  magnitudeFrom numerator denominator 8 (bits * 30102 / 100000 - 2)

/-- Looks for a decimal that reads back on the grid of `10 ^ e`, then on finer ones. -/
def shortestFrom (tie : Tie) (i : Interval) : Nat → Int → Digits
  | 0, e => ⟨0, e⟩
  | places + 1, e =>
    match (i.inUnits e).nearest? tie with
    | some k => ⟨k, e⟩
    | none => shortestFrom tie i places (e - 1)

/-- Moves trailing zeros of the digits into the exponent. -/
def stripZeros : Nat → Digits → Digits
  | 0, d => d
  | fuel + 1, d =>
    if d.digits != 0 && d.digits % 10 == 0 then stripZeros fuel ⟨d.digits / 10, d.exponent + 1⟩
    else d

/-- The shortest decimal that reads back as the positive finite number `b`.  Seventeen places
always suffice. -/
def shortest (tie : Tie) (b : Binary) : Digits :=
  let i := Interval.ofBinary b
  stripZeros 20 (shortestFrom tie i 18 (magnitude i.value i.denominator))

end ElmWire.Decimal
