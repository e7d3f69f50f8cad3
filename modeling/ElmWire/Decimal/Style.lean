import ElmWire.Decimal.Shortest

/-!
# Writing a float

`Style.write` writes a float with its shortest digits.  A `Style` holds the decisions that differ
between one textual format and another; the digits are the same in all of them, except that two
equally near decimals may be told apart differently.
-/

set_option autoImplicit false
namespace ElmWire.Decimal

/-- The decisions of a format about the text of floats. -/
structure Style where
  /-- Smallest exponent of the leading digit that is still written positionally. -/
  leastPlain : Int
  /-- Largest exponent of the leading digit that is still written positionally. -/
  greatestPlain : Int
  /-- Text between `e` and a non-negative exponent. -/
  exponentSign : String
  tie : Tie
  deriving Repr

/-- As many zeros as asked for. -/
def zeros (n : Nat) : String := String.ofList (List.replicate n '0')

/-- Positional notation, with at least one digit on either side of the point. -/
def positional (digits : List Char) (exponent : Int) : String :=
  let point := digits.length + exponent
  if 0 ≤ exponent then String.ofList digits ++ zeros exponent.toNat ++ ".0"
  else if 0 < point then
    String.ofList (digits.take point.toNat) ++ "." ++ String.ofList (digits.drop point.toNat)
  else "0." ++ zeros (-point).toNat ++ String.ofList digits

/-- Notation with one digit before the point and an exponent; the point is left out when nothing
follows it. -/
def scientific (style : Style) (digits : List Char) (exponent : Int) : String :=
  let leading := digits.length + exponent - 1
  let fraction := match digits.drop 1 with
    | [] => ""
    | rest => "." ++ String.ofList rest
  let sign := if leading < 0 then "-" else style.exponentSign
  String.ofList (digits.take 1) ++ fraction ++ "e" ++ sign ++ toString leading.natAbs

/-- Writes a positive number from its digits. -/
def Style.writeDigits (style : Style) (d : Digits) : String :=
  let digits := (toString d.digits).toList
  let leading := digits.length + d.exponent - 1
  if style.leastPlain ≤ leading && leading ≤ style.greatestPlain then positional digits d.exponent
  else scientific style digits d.exponent

/-- The text of a float.  Zero keeps its sign; what is not finite is written as a word. -/
def Style.write (style : Style) (x : Float) : String :=
  let b := Binary.ofFloat x
  let sign := if b.negative then "-" else ""
  if !b.finite then (if x.isNaN then "NaN" else sign ++ "inf")
  else if b.mantissa = 0 then sign ++ "0.0"
  else sign ++ style.writeDigits (shortest style.tie b)

end ElmWire.Decimal
