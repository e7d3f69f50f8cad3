import ElmWire.Layout.Doc

/-!
# Laying out documents

`best width start doc` lays a document out on a page of `width` columns, from column `start` on.
The result is a sequence of `Fragment`s that is computed piece by piece, as far as it is asked for.

Going through the document from left to right, the only choice is at a `union`.  Its first
alternative is taken if the rest of the line fits the page with it: everything up to the next line
break, including what comes *after* the union.  There, further unions are taken to be broken, as
they are free to be when their turn comes.  Nothing beyond the line is ever looked at.

So what a document does depends on what follows it, and both functions that go through a document
are given a description of that: `Doc.fits` the answer of the rest to the same question, and
`Doc.layout` a whole `Rest`.  This makes both of them plain recursions on the document.

Columns and indentations are counted without a bound.  In words of 64 bits the layout is the same as
long as none of them overflows (`ElmWire.Proofs.Layout.Words`).
-/

set_option autoImplicit false
namespace ElmWire.Layout

/-- A piece of laid-out text. -/
inductive Fragment where
  | text (s : String)
  /-- A line break and the indentation of the new line. -/
  | newline (indent : Nat)
  deriving Repr, DecidableEq

/-- Fragments that are computed when they are asked for. -/
inductive Fragments where
  | done
  | emit (fragment : Fragment) (rest : Unit → Fragments)

namespace Fragments

/-- All fragments. -/
def toList : Fragments → List Fragment
  | .done => []
  | .emit fragment rest => fragment :: (rest ()).toList

/-- The first `n` fragments; the others are not computed. -/
def take : Nat → Fragments → List Fragment
  | 0, _ => []
  | _ + 1, .done => []
  | n + 1, .emit fragment rest => fragment :: (rest ()).take n

/-- Goes through all fragments with an accumulator. -/
def foldl {α : Type} (f : α → Fragment → α) (a : α) : Fragments → α
  | .done => a
  | .emit fragment rest => (rest ()).foldl f (f a fragment)

theorem take_eq (n : Nat) (fragments : Fragments) :
    fragments.take n = fragments.toList.take n := by
  induction fragments generalizing n with
  | done => cases n <;> simp [take, toList]
  | emit fragment rest ih =>
    cases n with
    | zero => simp [take]
    | succ n => simp [take, toList, ih]

theorem foldl_eq {α : Type} (f : α → Fragment → α) (a : α) (fragments : Fragments) :
    fragments.foldl f a = fragments.toList.foldl f a := by
  induction fragments generalizing a with
  | done => rfl
  | emit fragment rest ih => simp [foldl, toList, ih]

end Fragments

/-- How soft line breaks are meant. -/
inductive Mode where
  | flat
  | broken
  deriving Repr, DecidableEq

/-- The columns that a text takes up. -/
def textWidth (s : String) : Nat := s.length

/-- An indentation changed by `n` columns; it cannot become negative. -/
def indented (indent : Nat) (n : Int) : Nat := (indent + n).toNat

/-! ## Does the line fit? -/

/-- Whether there is room for a text of some width and then for the rest of the line. -/
def fitsText (width : Nat) (rest : Int → Nat → Bool) (room : Int) (column : Nat) : Bool :=
  0 ≤ room - width && rest (room - width) (column + width)

/-- Whether the line fits into `room` more columns from `column` on, if the document comes next and
`rest` tells whether what follows it fits. -/
def Doc.fits (d : Doc) (indent : Nat) (mode : Mode) (rest : Int → Nat → Bool) (room : Int)
    (column : Nat) : Bool :=
  match d with
  | .nil => rest room column
  | .text s => fitsText (textWidth s) rest room column
  | .seq a b => a.fits indent mode (b.fits indent mode rest) room column
  | .indent n d => d.fits (indented indent n) mode rest room column
  | .line flat _ =>
    match mode with
    | .flat => fitsText (textWidth flat) rest room column
    | .broken => true
  | .hardline => mode == .broken
  | .union a b =>
    match mode with
    | .flat => a.fits indent mode rest room column
    | .broken => b.fits indent mode rest room column
  | .flatten d => d.fits indent .flat rest room column
  | .column f => (f column).fits indent mode rest room column
  | .nesting f => (f indent).fits indent mode rest room column

/-! ## The layout -/

/-- What comes after a document: whether it fits, and its own layout, from a column on. -/
structure Rest where
  fits : Int → Nat → Bool
  layout : Nat → Fragments

/-- Nothing comes after the document. -/
def Rest.nothing : Rest := ⟨fun _ _ => true, fun _ => .done⟩

/-- A text, and then the rest. -/
def emitText (s : String) (rest : Rest) (column : Nat) : Fragments :=
  .emit (.text s) fun _ => rest.layout (column + textWidth s)

/-- The layout of a document that starts in a column, and of what comes after it. -/
def Doc.layout (width : Nat) (d : Doc) (indent : Nat) (mode : Mode) (rest : Rest) (column : Nat) :
    Fragments :=
  match d with
  | .nil => rest.layout column
  | .text s => emitText s rest column
  | .seq a b =>
    a.layout width indent mode
      ⟨b.fits indent mode rest.fits, b.layout width indent mode rest⟩ column
  | .indent n d => d.layout width (indented indent n) mode rest column
  | .line flat broken =>
    match mode with
    | .flat => if flat.isEmpty then rest.layout column else emitText flat rest column
    | .broken =>
      .emit (.newline indent) fun _ =>
        if broken.isEmpty then rest.layout indent else emitText broken rest indent
  | .hardline => .emit (.newline indent) fun _ => rest.layout indent
  | .union a b =>
    match mode with
    | .flat => a.layout width indent mode rest column
    | .broken =>
      let room := signed width - signed column
      if 0 ≤ room && a.fits indent mode rest.fits room column
      then a.layout width indent mode rest column
      else b.layout width indent mode rest column
  | .flatten d => d.layout width indent .flat rest column
  | .column f => (f column).layout width indent mode rest column
  | .nesting f => (f indent).layout width indent mode rest column

/-- The layout of a document on a page of some width, from column `start` on. -/
def best (width start : Nat) (d : Doc) : Fragments :=
  d.layout width 0 .broken .nothing start

/-! ## Text -/

/-- A text that is being written, and the indentation that is owed to the current line. -/
structure Page where
  text : String
  owed : Nat

/-- Writes a fragment.  Indentation is only written in front of text, so that blank lines stay
empty. -/
def Page.write (page : Page) : Fragment → Page
  | .newline indent => ⟨page.text.push '\n', indent⟩
  | .text s =>
    if s.isEmpty then page
    else ⟨page.text ++ String.ofList (List.replicate page.owed ' ') ++ s, 0⟩

/-- The text of a document on a page of some width. -/
def render (width : Nat) (d : Doc) : String :=
  ((best width 0 d).foldl Page.write ⟨"", 0⟩).text

end ElmWire.Layout
