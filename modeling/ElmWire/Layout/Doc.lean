import ElmWire.Text.Quoted

/-!
# Documents

A `Doc` describes a text together with the ways in which it may be broken into lines.  Which of
them is chosen is a matter of the page it is laid out on (`ElmWire.Layout.Best`).

The constructors are the primitive documents; texts are put together with the functions below
them.  `Doc.append` and `Doc.nest` leave out what would have no effect.  `Doc.group` offers a
document in one line and, should that not fit, broken: the two alternatives share one tree, since
`flatten` is a document of its own that changes how line breaks below it are meant.

`column` and `nesting` hold functions from the place that the layout has reached, and with them
`Doc.align` makes a document hang from where it starts.

A document is a tree without infinite branches.  A document whose functions go on for ever, each
returning one with a further function in it, is left out: only a prefix of it could be laid out.
-/

set_option autoImplicit false
namespace ElmWire.Layout

/-- A text and the ways to break it into lines. -/
inductive Doc where
  | nil
  /-- Text without line breaks. -/
  | text (s : String)
  | seq (first second : Doc)
  /-- Changes the indentation of the line breaks inside by a number of columns. -/
  | indent (columns : Int) (doc : Doc)
  /-- A soft line break: `flat` in a line, and otherwise a new line that starts with `broken`. -/
  | line (flat broken : String)
  /-- A line break in any case. -/
  | hardline
  /-- The layout `flat` if its first line fits the page, and `broken` otherwise. -/
  | union (flat broken : Doc)
  /-- The document with its soft line breaks in their flat form. -/
  | flatten (doc : Doc)
  /-- The document that `f` gives for the column that the layout has reached. -/
  | column (f : Nat → Doc)
  /-- The document that `f` gives for the indentation in force. -/
  | nesting (f : Nat → Doc)
  deriving Inhabited

/-- A column as a signed number of 64 bits: from `2 ^ 63` on, columns and widths stand for negative
numbers, so that the greatest width of all leaves no room on the page. -/
def signed (n : Nat) : Int := if n < 9223372036854775808 then n else n - 18446744073709551616

theorem signed_of_lt {n : Nat} (h : n < 9223372036854775808) : signed n = n := if_pos h

namespace Doc

/-- Is it the empty document? -/
def isNil : Doc → Bool
  | .nil => true
  | _ => false

/-- Two documents one after the other. -/
def append (a b : Doc) : Doc :=
  if a.isNil then b else if b.isNil then a else .seq a b

instance : Append Doc := ⟨append⟩

/-- Changes the indentation of the line breaks inside by `n` columns. -/
def nest (n : Int) (d : Doc) : Doc := if n = 0 then d else .indent n d

/-- A line break that is a space when flat. -/
def space : Doc := .line " " ""

/-- A line break that is nothing when flat. -/
def softline : Doc := .line "" ""

/-- Documents one after the other. -/
def concat (docs : List Doc) : Doc := docs.foldl append .nil

/-- Documents with `separator` between them. -/
def join (separator : Doc) : List Doc → Doc
  | [] => .nil
  | first :: rest => rest.foldl (fun joined d => joined ++ separator ++ d) first

/-- Documents on lines of their own. -/
def lines (docs : List Doc) : Doc := join .hardline docs

/-- A document between two texts. -/
def surround (opening : String) (d : Doc) (closing : String) : Doc :=
  .text opening ++ d ++ .text closing

/-- The document in one line if it fits, and broken otherwise. -/
def group (d : Doc) : Doc := .union (.flatten d) d

/-- Indents the lines of the document to the column in which it starts. -/
def align (d : Doc) : Doc :=
  .column fun column => .nesting fun indent => d.nest (signed column - indent)

/-- Aligns the document and indents its further lines by `n` columns. -/
def hang (n : Int) (d : Doc) : Doc := (d.nest n).align

/-- The tree of a document, for a person to read.  Functions are not looked into. -/
def inspect : Doc → String
  | .nil => "Nil"
  | .text s => "Text(" ++ Text.quoted s ++ ")"
  | .seq a b => "Concat(" ++ inspect a ++ ", " ++ inspect b ++ ")"
  | .indent n d => "Nest(" ++ toString n ++ ", " ++ inspect d ++ ")"
  | .line flat broken => "Line(" ++ Text.quoted flat ++ ", " ++ Text.quoted broken ++ ")"
  | .hardline => "Hardline"
  | .union a b => "Union(" ++ inspect a ++ ", " ++ inspect b ++ ")"
  | .flatten d => "Flatten(" ++ inspect d ++ ")"
  | .column _ => "Column(<fn>)"
  | .nesting _ => "Nesting(<fn>)"

end Doc
end ElmWire.Layout
