import ElmWire.Decimal.Scaled
import ElmWire.Decimal.Style
import ElmWire.Members

/-!
# JSON values

JSON as it crosses the boundary between the two languages: a tree of objects, arrays and scalars.
An object has no order and no repeated names, so its members are kept as `Members`.

A number is an integer if it was written as one and fits into 64 bits, and a float otherwise; the
difference shows in its text.  `Number.text` is that text, `Number.toFloat` the float that any
number stands for, and `Number.toInt?` the integer that some stand for.
-/

set_option autoImplicit false
namespace ElmWire

/-- A JSON number. -/
inductive Json.Number where
  | int (n : Int)
  | float (x : Float)

/-- A JSON value. -/
inductive Json where
  | null
  | bool (b : Bool)
  | number (n : Json.Number)
  | string (s : String)
  | array (items : List Json)
  | object (members : List (String × Json))
  deriving Inhabited

namespace Json

/-- Floats are written positionally from `1e-5` up to but not including `1e16`, and otherwise
with a signed exponent.  Of two equally near decimals the one with an even last digit is taken. -/
def floatStyle : Decimal.Style where
  leastPlain := -5
  greatestPlain := 15
  exponentSign := "+"
  tie := .even

namespace Number

/-- The text of a number. -/
def text : Number → String
  | .int n => toString n
  | .float x => floatStyle.write x

/-- The float nearest to a number. -/
def toFloat : Number → Float
  | .int n => Decimal.ofInt n
  | .float x => x

/-- The integer that a number is equal to; `none` if it has a fractional part. -/
def toInt? : Number → Option Int
  | .int n => some n
  | .float x => (Decimal.Binary.ofFloat x).toInt?

/-- The value of a written number.  An integer is kept as one if it fits into 64 bits, with or
without a sign; minus zero does not, since only a float can be negative zero.  Other numbers are
read by scaling, and have no value if they are too large for a float. -/
def ofLiteral? (l : Decimal.Literal) : Option Number :=
  let fits :=
    if l.negative then 0 < l.digits && l.digits ≤ Nat.pow 2 63 else l.digits < Nat.pow 2 64
  if l.integral && fits then some (.int (if l.negative then -l.digits else l.digits))
  else l.scaled?.map .float

end Number

/-- What kind of JSON a value is, in words. -/
def kind : Json → String
  | .null => "null"
  | .bool _ => "a boolean"
  | .number _ => "a number"
  | .string _ => "a string"
  | .array _ => "an array"
  | .object _ => "an object"

end Json
end ElmWire
