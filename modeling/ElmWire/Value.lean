import ElmWire.Decimal.Style
import ElmWire.Members
import ElmWire.Text.Quoted
import ElmWire.Wire.Names

/-!
# Message values

A `Value` is a message, or a part of one, whose type is not known in advance.  Values of the types
`Maybe` and `Result` are variants like those of any custom type.

* `Value.kind` names the kind of a value.
* The `as…` functions give the contents of a value of the wanted kind, and an empty answer for any
  other.
* `Value.get?`, `Value.set`, `Value.push` and `Value.index` work on the parts of a value.
* `Value.inspect` is the text in which values are shown to a person.
-/

set_option autoImplicit false
namespace ElmWire

/-- A value of some message type. -/
inductive Value where
  | unit
  | bool (b : Bool)
  | int (n : Int)
  | float (x : Float)
  | char (c : Char)
  | string (s : String)
  | list (items : List Value)
  | tuple (items : List Value)
  | record (fields : List (String × Value))
  | variant (name : String) (arguments : List Value)
  deriving Inhabited

namespace Value

/-! ## Building values -/

/-- A record from its fields in any order; the last field with a name counts. -/
def ofFields (fields : List (String × Value)) : Value := .record (Members.ofList fields)

/-- A value that is there. -/
def just (v : Value) : Value := .variant Wire.just [v]

/-- A value that is not there. -/
def nothing : Value := .variant Wire.nothing []

/-- The value of a computation that went well. -/
def ok (v : Value) : Value := .variant Wire.ok [v]

/-- The error of a computation that failed. -/
def err (v : Value) : Value := .variant Wire.err [v]

/-! ## Looking into values -/

/-- The kind of a value, in a word. -/
def kind : Value → String
  | .unit => "unit"
  | .bool _ => "bool"
  | .int _ => "int"
  | .float _ => "float"
  | .char _ => "char"
  | .string _ => "string"
  | .list _ => "list"
  | .tuple _ => "tuple"
  | .record _ => "record"
  | .variant _ _ => "variant"

/-- The truth value of a boolean; `false` for other kinds. -/
def asBool : Value → Bool
  | .bool b => b
  | _ => false

/-- The number of an integer; zero for other kinds. -/
def asInt : Value → Int
  | .int n => n
  | _ => 0

/-- The number of a float; zero for other kinds. -/
def asFloat : Value → Float
  | .float x => x
  | _ => 0.0

/-- The text of a string; empty for other kinds. -/
def asString : Value → String
  | .string s => s
  | _ => ""

/-- The items of a list or a tuple; none for other kinds. -/
def asItems : Value → List Value
  | .list items | .tuple items => items
  | _ => []

/-- The name and the arguments of a variant; both empty for other kinds. -/
def asVariant : Value → String × List Value
  | .variant name arguments => (name, arguments)
  | _ => ("", [])

/-- The value of a field of a record. -/
def get? (v : Value) (name : String) : Option Value :=
  match v with
  | .record fields => fields.lookup name
  | _ => none

/-- Why a value has no item at an index. -/
inductive IndexError where
  | notIndexable (kind : String)
  | outOfBounds (length index : Nat)

/-- The text of an index error. -/
def IndexError.message : IndexError → String
  | .notIndexable kind => s!"cannot index into a {kind} value"
  | .outOfBounds length index =>
    s!"index out of bounds: the len is {length} but the index is {index}"

/-- The item of a list or tuple, or the argument of a variant, at an index. -/
def index (v : Value) (i : Nat) : Except IndexError Value :=
  let item (items : List Value) : Except IndexError Value :=
    match items[i]? with
    | some v => .ok v
    | none => .error (.outOfBounds items.length i)
  match v with
  | .list items | .tuple items => item items
  | .variant _ arguments => item arguments
  | other => .error (.notIndexable other.kind)

/-! ## Changing values -/

/-- Gives a field of a record a value; other kinds stay as they are. -/
def set (v : Value) (name : String) (new : Value) : Value :=
  match v with
  | .record fields => .record (Members.insert name new fields)
  | other => other

/-- Adds an item at the end of a list; other kinds stay as they are. -/
def push (v : Value) (item : Value) : Value :=
  match v with
  | .list items => .list (items ++ [item])
  | other => other

/-! ## Comparing values -/

mutual

/-- Equality of values.  Floats are compared as numbers, so the two zeros are equal and a value
with a NaN in it is not equal to itself. -/
def beq : Value → Value → Bool
  | .unit, .unit => true
  | .bool a, .bool b => a == b
  | .int a, .int b => a == b
  | .float a, .float b => a == b
  | .char a, .char b => a == b
  | .string a, .string b => a == b
  | .list as, .list bs => beqItems as bs
  | .tuple as, .tuple bs => beqItems as bs
  | .record as, .record bs => beqFields as bs
  | .variant a as, .variant b bs => a == b && beqItems as bs
  | _, _ => false

/-- Equality of lists of values, item by item. -/
def beqItems : List Value → List Value → Bool
  | [], [] => true
  | a :: as, b :: bs => beq a b && beqItems as bs
  | _, _ => false

/-- Equality of the fields of records, field by field. -/
def beqFields : List (String × Value) → List (String × Value) → Bool
  | [], [] => true
  | (m, a) :: as, (n, b) :: bs => m == n && beq a b && beqFields as bs
  | _, _ => false

end

instance : BEq Value := ⟨beq⟩

/-! ## Showing values -/

/-- Floats are shown positionally from `1e-4` up to but not including `1e16`, and otherwise with
an exponent.  Of two equally near decimals the greater is taken. -/
def floatStyle : Decimal.Style where
  leastPlain := -4
  greatestPlain := 15
  exponentSign := ""
  tie := .up

mutual

/-- The text in which a value is shown. -/
def inspect : Value → String
  | .unit => "()"
  | .bool true => "true"
  | .bool false => "false"
  | .int n => toString n
  | .float x => floatStyle.write x
  | .char c => Text.quotedChar c
  | .string s => Text.quoted s
  | .list items => "[" ++ String.intercalate ", " (inspectItems items) ++ "]"
  | .tuple items => "(" ++ String.intercalate ", " (inspectItems items) ++ ")"
  | .record fields => "\x7b" ++ String.intercalate ", " (inspectFields fields) ++ "\x7d"
  | .variant name arguments => String.intercalate " " (name :: inspectItems arguments)

/-- The texts of several values. -/
def inspectItems : List Value → List String
  | [] => []
  | v :: rest => inspect v :: inspectItems rest

/-- The texts of the fields of a record. -/
def inspectFields : List (String × Value) → List String
  | [] => []
  | (name, v) :: rest => (name ++ ": " ++ inspect v) :: inspectFields rest

end

end Value
end ElmWire
