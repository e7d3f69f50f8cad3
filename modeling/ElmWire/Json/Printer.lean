import ElmWire.Json.Basic

/-!
# Writing JSON

`Json.compact` writes a value without any blanks, `Json.pretty` with one member or item a line and
two more spaces for each level.  Members come out in the order in which the object lists them.

In a string only what has to be escaped is escaped: the quote, the backslash and the characters
below the space.
-/

set_option autoImplicit false
namespace ElmWire.Json

/-! ## Strings -/

/-- A character code as four hexadecimal digits. -/
def hex4 (n : Nat) : List Char :=
  let digits := Nat.toDigits 16 n
  List.replicate (4 - digits.length) '0' ++ digits

/-- The characters that stand for `c` inside a string literal. -/
def escapeChar (c : Char) : List Char :=
  match c with
  | '\x22' => ['\\', '\x22']
  | '\\' => ['\\', '\\']
  | '\x08' => ['\\', 'b']
  | '\t' => ['\\', 't']
  | '\n' => ['\\', 'n']
  | '\x0c' => ['\\', 'f']
  | '\r' => ['\\', 'r']
  | c => if c.toNat < 0x20 then '\\' :: 'u' :: hex4 c.toNat else [c]

/-- A string literal. -/
def quote (s : String) : String :=
  String.ofList ('\x22' :: s.toList.flatMap escapeChar ++ ['\x22'])

/-! ## Values -/

mutual

/-- The text of a value, without blanks. -/
def compact : Json → String
  | .null => "null"
  | .bool true => "true"
  | .bool false => "false"
  | .number n => n.text
  | .string s => quote s
  | .array items => "[" ++ String.intercalate "," (compactItems items) ++ "]"
  | .object members => "\x7b" ++ String.intercalate "," (compactMembers members) ++ "\x7d"

/-- The texts of the items of an array. -/
def compactItems : List Json → List String
  | [] => []
  | item :: rest => compact item :: compactItems rest

/-- The texts of the members of an object. -/
def compactMembers : List (String × Json) → List String
  | [] => []
  | (name, value) :: rest => (quote name ++ ":" ++ compact value) :: compactMembers rest

end

/-- A line break and `n` levels of indentation. -/
def newline (n : Nat) : String :=
  String.ofList ('\n' :: List.replicate (2 * n) ' ')

/-- A bracketed list with an entry a line, at level `n`; an empty one stays on its line. -/
def block (n : Nat) (opening closing : String) (entries : List String) : String :=
  match entries with
  | [] => opening ++ closing
  | entries =>
    opening ++ newline (n + 1) ++ String.intercalate ("," ++ newline (n + 1)) entries ++
      newline n ++ closing

mutual

/-- The text of a value over several lines, at level `n`. -/
def prettyAt (n : Nat) : Json → String
  | .array items => block n "[" "]" (prettyItems (n + 1) items)
  | .object members => block n "\x7b" "\x7d" (prettyMembers (n + 1) members)
  | scalar => compact scalar

/-- The texts of the items of an array, each at level `n`. -/
def prettyItems (n : Nat) : List Json → List String
  | [] => []
  | item :: rest => prettyAt n item :: prettyItems n rest

/-- The texts of the members of an object, each at level `n`. -/
def prettyMembers (n : Nat) : List (String × Json) → List String
  | [] => []
  | (name, value) :: rest => (quote name ++ ": " ++ prettyAt n value) :: prettyMembers n rest

end

/-- The text of a value over several lines. -/
def pretty (j : Json) : String := prettyAt 0 j

end ElmWire.Json
