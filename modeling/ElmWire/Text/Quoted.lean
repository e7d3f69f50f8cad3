import ElmWire.Text.Visible

/-!
# Quoted text for messages

A string or a character that is shown to a person stands between quotes, and everything in it that
could be mistaken or would not show is escaped: the enclosing quote and the backslash, the usual
control characters by letter, and every other hidden character by its code point.
-/

set_option autoImplicit false
namespace ElmWire.Text

/-- A code point in lower-case hexadecimal, in braces. -/
def codePoint (c : Char) : String :=
  "\\u\x7b" ++ String.ofList (Nat.toDigits 16 c.toNat) ++ "\x7d"

/-- The text of one character between two `quote` marks. -/
def escaped (quote c : Char) : String :=
  if c = quote || c = '\\' then String.ofList ['\\', c]
  else match c with
    | '\n' => "\\n"
    | '\r' => "\\r"
    | '\t' => "\\t"
    | '\x00' => "\\0"
    | c => if isVisible c then c.toString else codePoint c

/-- The mark around strings, `"`. -/
def stringQuote : Char := '\x22'

/-- The mark around characters, `'`. -/
def charQuote : Char := '\x27'

/-- A string in double quotes. -/
def quoted (s : String) : String :=
  stringQuote.toString ++ String.join (s.toList.map (escaped stringQuote)) ++ stringQuote.toString

/-- A character in single quotes. -/
def quotedChar (c : Char) : String :=
  charQuote.toString ++ escaped charQuote c ++ charQuote.toString

end ElmWire.Text
