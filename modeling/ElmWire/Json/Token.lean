import ElmWire.Decimal.Literal

/-!
# The tokens of a JSON text

`Token.scan?` cuts a text into its tokens and drops the blanks between them.  It reads the text
one character at a time: a `Scanner` is what has been found so far together with what the scanner
is in the middle of, and `Scanner.step` says what the next character makes of it.

A run of letters, digits, signs and points is collected first and understood when it ends, as one
of the three words or as a number.  A string literal is collected in 16-bit code units where it
has escapes, since one character may be spelled as two escapes; a literal with half of such a pair
is scanned all the same, but has no text.
-/

set_option autoImplicit false
namespace ElmWire.Json

/-- A token of a JSON text. -/
inductive Token where
  | openBrace
  | closeBrace
  | openBracket
  | closeBracket
  | colon
  | comma
  | null
  | bool (b : Bool)
  | number (literal : Decimal.Literal)
  /-- A string literal; `none` if half of a surrogate pair is missing. -/
  | string (text : Option String)

/-- How far the scanner is into an escape. -/
inductive Escape where
  | outside
  | opened
  | hex (count value : Nat)

/-- What the scanner is in the middle of.  What was collected stands last character first. -/
inductive Mode where
  | between
  | word (chars : List Char)
  | string (units : List Nat) (escape : Escape)

/-- The state of the scanner: the tokens found so far, last one first, and its mode. -/
structure Scanner where
  tokens : List Token
  mode : Mode

/-! ## Words and strings -/

/-- Blanks between tokens. -/
def isBlank (c : Char) : Bool := c = ' ' || c = '\t' || c = '\n' || c = '\r'

/-- Characters of words and numbers. -/
def isWordChar (c : Char) : Bool := c.isAlphanum || c = '+' || c = '-' || c = '.'

/-- The token that a whole run of word characters stands for. -/
def word? (chars : List Char) : Option Token :=
  if chars = ['t', 'r', 'u', 'e'] then some (.bool true)
  else if chars = ['f', 'a', 'l', 's', 'e'] then some (.bool false)
  else if chars = ['n', 'u', 'l', 'l'] then some .null
  else (Decimal.Literal.ofChars? chars).map .number

/-- Is the code unit the first half of a pair? -/
def isHigh (unit : Nat) : Bool := 0xd800 ≤ unit && unit < 0xdc00

/-- Is the code unit the second half of a pair? -/
def isLow (unit : Nat) : Bool := 0xdc00 ≤ unit && unit < 0xe000

/-- Puts the code units of a literal, last one first, in front of the characters `chars`, joining
pairs; `none` if one half of a pair stands without the other. -/
def joinPairs : List Nat → List Char → Option (List Char)
  | [], chars => some chars
  | [unit], chars => if isHigh unit || isLow unit then none else some (Char.ofNat unit :: chars)
  | unit :: before :: rest, chars =>
    if isLow unit then
      if isHigh before then
        joinPairs rest (Char.ofNat (0x10000 + (before - 0xd800) * 0x400 + (unit - 0xdc00)) :: chars)
      else none
    else if isHigh unit then none
    else joinPairs (before :: rest) (Char.ofNat unit :: chars)

/-- The character that a letter stands for after a backslash. -/
def escapeLetter? (c : Char) : Option Char :=
  match c with
  | '\x22' => some '\x22'
  | '\\' => some '\\'
  | '/' => some '/'
  | 'b' => some '\x08'
  | 'f' => some '\x0c'
  | 'n' => some '\n'
  | 'r' => some '\r'
  | 't' => some '\t'
  | _ => none

/-- The value of a hexadecimal digit. -/
def hexValue? (c : Char) : Option Nat :=
  if c.isDigit then some (c.toNat - '0'.toNat)
  else if 'a' ≤ c && c ≤ 'f' then some (c.toNat - 'a'.toNat + 10)
  else if 'A' ≤ c && c ≤ 'F' then some (c.toNat - 'A'.toNat + 10)
  else none

/-! ## Scanning -/

namespace Scanner

/-- A character between two tokens: a blank, a token of its own, or the start of a longer one. -/
def start? (s : Scanner) (c : Char) : Option Scanner :=
  let token (t : Token) : Option Scanner := some ⟨t :: s.tokens, .between⟩
  match c with
  | '\x7b' => token .openBrace
  | '\x7d' => token .closeBrace
  | '[' => token .openBracket
  | ']' => token .closeBracket
  | ':' => token .colon
  | ',' => token .comma
  | '\x22' => some ⟨s.tokens, .string [] .outside⟩
  | c =>
    if isBlank c then some ⟨s.tokens, .between⟩
    else if isWordChar c then some ⟨s.tokens, .word [c]⟩
    else none

/-- A character inside a string literal. -/
def stringStep? (s : Scanner) (units : List Nat) (escape : Escape) (c : Char) : Option Scanner :=
  match escape with
  | .outside =>
    if c = '\x22' then some ⟨.string ((joinPairs units []).map String.ofList) :: s.tokens, .between⟩
    else if c = '\\' then some ⟨s.tokens, .string units .opened⟩
    else if c.toNat < 0x20 then none
    else some ⟨s.tokens, .string (c.toNat :: units) .outside⟩
  | .opened =>
    if c = 'u' then some ⟨s.tokens, .string units (.hex 0 0)⟩
    else (escapeLetter? c).map fun letter => ⟨s.tokens, .string (letter.toNat :: units) .outside⟩
  | .hex count value =>
    (hexValue? c).map fun digit =>
      let value := 16 * value + digit
      if count = 3 then ⟨s.tokens, .string (value :: units) .outside⟩
      else ⟨s.tokens, .string units (.hex (count + 1) value)⟩

/-- Reads one character. -/
def step? (s : Scanner) (c : Char) : Option Scanner :=
  match s.mode with
  | .between => s.start? c
  | .word chars =>
    if isWordChar c then some ⟨s.tokens, .word (c :: chars)⟩
    else match word? chars.reverse with
      | none => none
      | some token => Scanner.start? ⟨token :: s.tokens, .between⟩ c
  | .string units escape => s.stringStep? units escape c

/-- Reads all of a text. -/
def run? : Scanner → List Char → Option Scanner
  | s, [] => some s
  | s, c :: cs =>
    match s.step? c with
    | none => none
    | some next => run? next cs

/-- The tokens at the end of the text, which must not be the middle of a string. -/
def finish? (s : Scanner) : Option (List Token) :=
  match s.mode with
  | .between => some s.tokens.reverse
  | .word chars => (word? chars.reverse).map fun token => (token :: s.tokens).reverse
  | .string _ _ => none

end Scanner

/-- The tokens of a text. -/
def Token.scan? (chars : List Char) : Option (List Token) :=
  (Scanner.run? ⟨[], .between⟩ chars).bind Scanner.finish?

end ElmWire.Json
