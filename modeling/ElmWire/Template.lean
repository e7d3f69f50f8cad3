/-!
# Templates

A template is a text with named slots, each written as its name between double braces.  A name
consists of lower-case letters and underscores; braces that do not enclose one are ordinary text.

`tokens` takes a template apart from left to right, and `fill` puts a value into each slot.  The
values themselves are copied as they are, whatever they look like.
-/

set_option autoImplicit false
namespace ElmWire.Template

/-- A part of a template: a character of its text, or a slot. -/
inductive Token where
  | char (c : Char)
  | slot (name : List Char)
  deriving Repr, DecidableEq

/-- The first slot without a value. -/
structure Unfilled where
  slot : String
  deriving Repr, DecidableEq

/-- The text of the error of a slot without a value. -/
def Unfilled.message (u : Unfilled) : String :=
  "Template error: no value for placeholder \x7b\x7b" ++ u.slot ++ "\x7d\x7d"

/-- The characters of the names of slots. -/
def isNameChar (c : Char) : Bool := c.isLower || c = '_'

/-- The name of the slot that the characters start with. -/
def slotAt? : List Char → Option (List Char)
  | '\x7b' :: '\x7b' :: rest =>
    let name := rest.takeWhile isNameChar
    match name, rest.dropWhile isNameChar with
    | _ :: _, '\x7d' :: '\x7d' :: _ => some name
    | _, _ => none
  | _ => none

/-- The parts of a template, after `skip` characters that belong to a slot already found. -/
def tokensAfter (skip : Nat) : List Char → List Token
  | [] => []
  | c :: cs =>
    match skip with
    | skip + 1 => tokensAfter skip cs
    | 0 =>
      match slotAt? (c :: cs) with
      | some name => .slot name :: tokensAfter (name.length + 3) cs
      | none => .char c :: tokensAfter 0 cs

/-- The parts of a template. -/
def tokens (template : List Char) : List Token := tokensAfter 0 template

/-- The text of a part of a template, given the values of slots. -/
def textOf (values : List (String × String)) : Token → Except Unfilled String
  | .char c => .ok c.toString
  | .slot name =>
    match values.lookup (String.ofList name) with
    | some value => .ok value
    | none => .error ⟨String.ofList name⟩

/-- Puts the first value listed for each slot into it; fails at the first slot without one. -/
def fill (template : String) (values : List (String × String)) : Except Unfilled String :=
  ((tokens template.toList).mapM (textOf values)).map String.join

end ElmWire.Template
