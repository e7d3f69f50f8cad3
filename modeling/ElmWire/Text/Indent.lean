import ElmWire.Text.Split

/-!
# Indenting text

`Text.indent n` moves a text of several lines to the right, so that it can be put behind something
that already stands `n` columns in.
-/

set_option autoImplicit false
namespace ElmWire.Text

/-- As many spaces as asked for. -/
def spaces (n : Nat) : String := String.ofList (List.replicate n ' ')

/-- The lines of a text.  There is always at least one. -/
def lines (s : String) : List String := pieces '\n' s

/-- Puts `n` spaces in front of every line but the first, except where the line is empty. -/
def indent (n : Nat) (s : String) : String :=
  match lines s with
  | [] => ""
  | first :: rest =>
    String.intercalate "\n"
      (first :: rest.map fun line => if line.isEmpty then line else spaces n ++ line)

end ElmWire.Text
