/-!
# Floats as exact binary numbers

A finite float is `± mantissa · 2 ^ exponent` with natural `mantissa`.  Everything that has to be
exact about floats (their shortest decimal text, whether they are integers) is computed from
these parts in `Nat` and `Int`, and never from rounded float arithmetic.

* `Binary.ofFloat` — the parts of a float, with what is needed to know its two neighbours.
* `Binary.toInt?` — the integer a float stands for, if it stands for one.
-/

set_option autoImplicit false
namespace ElmWire.Decimal

/-- A float taken apart.  A finite one is `mantissa · 2 ^ exponent`, negated if `negative`. -/
structure Binary where
  negative : Bool
  finite : Bool
  mantissa : Nat
  exponent : Int
  /-- The float below is only half as far away as the float above: the mantissa has just started
  over at a power of two. -/
  closerBelow : Bool
  deriving Repr, DecidableEq

namespace Binary

/-- Takes a float apart: one sign bit, eleven bits of exponent, fifty-two bits of fraction. -/
def ofFloat (x : Float) : Binary :=
  let bits := x.toBits.toNat
  let biased := bits / Nat.pow 2 52 % Nat.pow 2 11
  let fraction := bits % Nat.pow 2 52
  { negative := bits / Nat.pow 2 63 == 1
    finite := biased != Nat.pow 2 11 - 1
    mantissa := if biased = 0 then fraction else Nat.pow 2 52 + fraction
    exponent := (max biased 1 : Nat) - 1075
    closerBelow := fraction == 0 && biased > 1 }

/-- The integer that a finite binary number is equal to; `none` if it has a fractional part. -/
def toInt? (b : Binary) : Option Int :=
  let signed (n : Nat) : Int := if b.negative then -n else n
  if !b.finite then none
  else if 0 ≤ b.exponent then some (signed (b.mantissa * Nat.pow 2 b.exponent.toNat))
  else
    let unit := Nat.pow 2 (-b.exponent).toNat
    if b.mantissa % unit = 0 then some (signed (b.mantissa / unit)) else none

end Binary
end ElmWire.Decimal
