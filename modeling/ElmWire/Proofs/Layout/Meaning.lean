import ElmWire.Layout.Best

/-!
# Documents as functions on what follows

What a document does to a line depends on what comes after it, so a document by itself *means* a
function: from what comes after it to what comes after the text in front of it.  `Doc.before` is
that function, with a page, an indentation and a mode in force.  It puts the two recursions
`Doc.fits` and `Doc.layout` together, and there is one equation for each way to build a document: a
sequence is a composition (`before_seq`), a union that may be broken is a choice (`Rest.choose`),
and so on.

Two documents are *alike* if they mean the same function (`Doc.Alike`).  The meaning of a document
is made of the meanings of its parts and of nothing else, so that documents with alike parts are
alike.
-/

set_option autoImplicit false
namespace ElmWire.Layout

/-! ## What a document means -/

/-- The document, and then the rest. -/
def Doc.before (width : Nat) (d : Doc) (indent : Nat) (mode : Mode) (rest : Rest) : Rest :=
  ⟨d.fits indent mode rest.fits, d.layout width indent mode rest⟩

/-- A text, and then the rest. -/
def Rest.text (s : String) (rest : Rest) : Rest :=
  ⟨fitsText (textWidth s) rest.fits, emitText s rest⟩

/-- On a page, the first of two ways to go on if it fits, and otherwise the second.  A look ahead
supposes the second. -/
def Rest.choose (width : Nat) (flat broken : Rest) : Rest where
  fits := broken.fits
  layout column :=
    let room := signed width - signed column
    if 0 ≤ room && flat.fits room column then flat.layout column else broken.layout column

/-- A way to go on that depends on the column. -/
def Rest.fromColumn (f : Nat → Rest) : Rest where
  fits room column := (f column).fits room column
  layout column := (f column).layout column

section

variable (width indent : Nat) (mode : Mode) (rest : Rest)

theorem best_eq_before (start : Nat) (d : Doc) :
    best width start d = (d.before width 0 .broken .nothing).layout start := rfl

theorem before_nil : Doc.nil.before width indent mode rest = rest := rfl

theorem before_text (s : String) :
    (Doc.text s).before width indent mode rest = .text s rest := rfl

theorem before_seq (a b : Doc) : (Doc.seq a b).before width indent mode rest =
    a.before width indent mode (b.before width indent mode rest) := rfl

theorem before_indent (n : Int) (d : Doc) : (Doc.indent n d).before width indent mode rest =
    d.before width (indented indent n) mode rest := rfl

theorem before_flatten (d : Doc) :
    (Doc.flatten d).before width indent mode rest = d.before width indent .flat rest := rfl

theorem before_union_flat (a b : Doc) :
    (Doc.union a b).before width indent .flat rest = a.before width indent .flat rest := rfl

theorem before_union_broken (a b : Doc) : (Doc.union a b).before width indent .broken rest =
    .choose width (a.before width indent .broken rest) (b.before width indent .broken rest) := rfl

theorem before_column (f : Nat → Doc) : (Doc.column f).before width indent mode rest =
    .fromColumn fun column => (f column).before width indent mode rest := rfl

theorem before_nesting (f : Nat → Doc) : (Doc.nesting f).before width indent mode rest =
    (f indent).before width indent mode rest := rfl

end

/-! ## Documents that mean the same -/

/-- The documents mean the same. -/
def Doc.Alike (a b : Doc) : Prop :=
  ∀ width indent mode rest, a.before width indent mode rest = b.before width indent mode rest

namespace Doc.Alike

variable {a a' b b' d d' : Doc}

theorem refl (d : Doc) : d.Alike d := fun _ _ _ _ => rfl

theorem seq (ha : a.Alike a') (hb : b.Alike b') : (Doc.seq a b).Alike (.seq a' b') := by
  intro width indent mode rest
  rw [before_seq, before_seq, ha, hb]

theorem indent (n : Int) (h : d.Alike d') : (Doc.indent n d).Alike (.indent n d') :=
  fun width indent mode rest => h width (indented indent n) mode rest

theorem flatten (h : d.Alike d') : (Doc.flatten d).Alike (.flatten d') :=
  fun width indent _ rest => h width indent .flat rest

theorem union (ha : a.Alike a') (hb : b.Alike b') : (Doc.union a b).Alike (.union a' b') := by
  intro width indent mode rest
  cases mode with
  | flat => rw [before_union_flat, before_union_flat, ha]
  | broken => rw [before_union_broken, before_union_broken, ha, hb]

theorem column {f g : Nat → Doc} (h : ∀ n, (f n).Alike (g n)) :
    (Doc.column f).Alike (.column g) := by
  intro width indent mode rest
  rw [before_column, before_column]
  exact congrArg Rest.fromColumn (funext fun column => h column width indent mode rest)

theorem nesting {f g : Nat → Doc} (h : ∀ n, (f n).Alike (g n)) :
    (Doc.nesting f).Alike (.nesting g) := fun width indent mode rest =>
  h indent width indent mode rest

end Doc.Alike

end ElmWire.Layout
