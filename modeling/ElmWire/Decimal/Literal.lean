/-!
# Decimal numbers as they are written

A `Literal` is a decimal number with its digits as they were written: those before the point, those
after it, and the exponent.  `Literal.ofChars?` accepts exactly the number grammar of JSON: an
optional minus sign, an integer without leading zeros, then optionally a point with digits and an
exponent with digits.

A literal is given its value only when somebody asks for it, since a text may hold numbers that
nobody reads.  `Literal.toFloat?` is the float nearest to it; `ElmWire.Decimal.Scaled` has another
way to read it.
-/

set_option autoImplicit false
namespace ElmWire.Decimal

/-- The natural number that a decimal digit stands for. -/
def digitValue (c : Char) : Nat := c.toNat - '0'.toNat

/-- The natural number that a run of decimal digits stands for. -/
def ofDigits (cs : List Char) : Nat := cs.foldl (fun n c => 10 * n + digitValue c) 0

/-- A written number. -/
structure Literal where
  negative : Bool
  /-- The digits before the point. -/
  whole : List Char
  /-- The digits after the point. -/
  places : List Char
  /-- The exponent, if there is one. -/
  exponent : Option Int
  deriving Repr, DecidableEq

namespace Literal

/-- Is it written without a point and without an exponent? -/
def integral (l : Literal) : Bool := l.places.isEmpty && l.exponent.isNone

/-- The number that all digits stand for, read without the point. -/
def digits (l : Literal) : Nat := ofDigits (l.whole ++ l.places)

/-- The power of ten by which `digits` is to be multiplied. -/
def scale (l : Literal) : Int := l.exponent.getD 0 - l.places.length

/-! ## Reading characters -/

/-- The integer part: a single zero, or digits that do not start with one. -/
def isWhole : List Char → Bool
  | ['0'] => true
  | c :: cs => c != '0' && c.isDigit && cs.all Char.isDigit
  | [] => false

/-- The exponent at the end of a number: nothing, or `e` with an optionally signed integer. -/
def exponent? : List Char → Option (Option Int)
  | [] => some none
  | e :: rest =>
    if e != 'e' && e != 'E' then none
    else
      let (negative, digits) := match rest with
        | '-' :: ds => (true, ds)
        | '+' :: ds => (false, ds)
        | ds => (false, ds)
      if digits.isEmpty || !digits.all Char.isDigit then none
      else some (some (if negative then -(ofDigits digits : Int) else ofDigits digits))

/-- What may follow the integer part `whole` of a number. -/
def afterWhole? (negative : Bool) (whole rest : List Char) : Option Literal :=
  match rest with
  | '.' :: more =>
    let places := more.takeWhile Char.isDigit
    if places.isEmpty then none
    else (exponent? (more.dropWhile Char.isDigit)).map fun e => ⟨negative, whole, places, e⟩
  | _ => (exponent? rest).map fun e => ⟨negative, whole, [], e⟩

/-- Reads a number; every character has to belong to it. -/
def ofChars? (cs : List Char) : Option Literal :=
  let (negative, body) := match cs with
    | '-' :: rest => (true, rest)
    | rest => (false, rest)
  let whole := body.takeWhile Char.isDigit
  if isWhole whole then afterWhole? negative whole (body.dropWhile Char.isDigit) else none

/-! ## The nearest float -/

/-- The float nearest to `digits · 10 ^ exponent`; `none` if it would be infinite.  Numbers whose
leading digit alone settles the matter are not computed. -/
def magnitude? (digits : Nat) (exponent : Int) : Option Float :=
  let leading := (toString digits).length + exponent
  if digits = 0 || leading < -330 then some 0.0
  else if 310 < leading then none
  else
    let x := Float.ofScientific digits (exponent < 0) exponent.natAbs
    if x.isFinite then some x else none

/-- The float nearest to the literal; `none` if it would be infinite.  A negative zero keeps its
sign. -/
def toFloat? (l : Literal) : Option Float :=
  (magnitude? l.digits l.scale).map fun x => if l.negative then -x else x

end Literal

/-- The float nearest to a natural number of at most 64 bits. -/
def ofNat (n : Nat) : Float := Float.ofScientific n false 0

/-- The float nearest to an integer of at most 64 bits. -/
def ofInt (n : Int) : Float := if n < 0 then -ofNat n.natAbs else ofNat n.natAbs

end ElmWire.Decimal
