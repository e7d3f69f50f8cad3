import ElmWire.Decimal.Literal

/-!
# Reading decimals by scaling

The nearest float to a decimal takes arithmetic on long numbers to find.  `Literal.scaled?` gets by
with a word of 64 bits and a few operations on floats: it takes the leading digits that fit into
the word, turns them into a float, and multiplies or divides that by a power of ten.

Each of these steps rounds.  So the result is the nearest float where the digits and the power are
both exact floats, and otherwise may be off in the last place.

The power of ten has to be a float, which those up to `greatestPower` are.  Beyond that a quotient
is reached by several divisions, while a product is too large for a float.
-/

set_option autoImplicit false
namespace ElmWire.Decimal

/-- The least number that does not fit into the word. -/
def wordBound : Nat := Nat.pow 2 64

/-- Appends digits to a number up to the first one with which it would no longer fit into the word.
The other part of the result are the digits that are left. -/
def appendFitting (n : Nat) : List Char → Nat × List Char
  | [] => (n, [])
  | c :: cs =>
    let longer := 10 * n + digitValue c
    if longer < wordBound then appendFitting longer cs else (n, c :: cs)

/-- The exponent of the greatest power of ten that is a float. -/
def greatestPower : Nat := 308

/-- The float nearest to a power of ten. -/
def tenTo (exponent : Nat) : Float := Float.ofScientific 1 false exponent

/-- Divides by the greatest power of ten, `times` times or until there is nothing left. -/
def divideDown (x : Float) : Nat → Float
  | 0 => x
  | times + 1 => if x == 0.0 then x else divideDown (x / tenTo greatestPower) times

/-- The float `n · 10 ^ exponent` in as few operations as possible; `none` if it is too large. -/
def scaleFloat? (n : Nat) (exponent : Int) : Option Float :=
  match exponent with
  | .ofNat e =>
    if n = 0 then some 0.0
    else if greatestPower < e then none
    else
      let x := ofNat n * tenTo e
      if x.isFinite then some x else none
  | .negSucc e =>
    let times := e / greatestPower
    some (divideDown (ofNat n) times / tenTo (e + 1 - greatestPower * times))

namespace Literal

/-- The leading digits that fit into the word, and the power of ten that goes with them.  After the
first digit before the point that does not fit, the others there only count; digits after the
point are taken up again as long as they fit. -/
def leading (l : Literal) : Nat × Int :=
  let (n, wholeLeft) := appendFitting 0 l.whole
  let (n, placesLeft) := appendFitting n l.places
  (n, l.exponent.getD 0 + wholeLeft.length - (l.places.length - placesLeft.length : Nat))

/-- The float that scaling gives for the literal; `none` if it is too large.  A negative zero keeps
its sign. -/
def scaled? (l : Literal) : Option Float :=
  (scaleFloat? l.leading.1 l.leading.2).map fun x => if l.negative then -x else x

end Literal
end ElmWire.Decimal
