import ElmWire.Proofs.Layout.Algebra
import ElmWire.Proofs.Layout.Meaning

/-!
# Layouts in words of 64 bits

`best` counts columns without a bound, and a machine counts them in words of 64 bits.  Widths and
columns are words without a sign.  An indentation is changed, and the room on a line is found, in
words with one.  What gets too large for a word wraps around, if it is not refused.

* `wrap` — what is left of a number in a word with a sign.
* `Doc.inWords`, `bestInWords` — the layout with every sum and every difference in a word.
* `Doc.InBounds` — no number is too large for its word, whichever alternatives are chosen.

**In bounds, the layout in words is the layout** (`bestInWords_eq`).  What is laid out and what is
looked ahead at meets the columns of some layout of the document, so that it is enough to know about
those.  Out of bounds all is lost: an indentation that wraps around is negative, and such an
indentation is none.
-/

set_option autoImplicit false
namespace ElmWire.Layout

/-! ## Words -/

/-- The number is a word with a sign. -/
def IsSigned (n : Int) : Prop := -9223372036854775808 ≤ n ∧ n < 9223372036854775808

instance (n : Int) : Decidable (IsSigned n) := inferInstanceAs (Decidable (_ ∧ _))

/-- What is left of a number in a word with a sign. -/
def wrap (n : Int) : Int :=
  (n + 9223372036854775808) % 18446744073709551616 - 9223372036854775808

theorem wrap_of_isSigned {n : Int} (h : IsSigned n) : wrap n = n := by
  obtain ⟨hlow, hhigh⟩ := h
  rw [wrap]
  omega

/-- The column behind a text. -/
def columnInWords (column : Nat) (s : String) : Nat :=
  (column + textWidth s) % 18446744073709551616

/-- An indentation changed by `n` columns; it cannot become negative. -/
def indentedInWords (indent : Nat) (n : Int) : Nat := (wrap (signed indent + n)).toNat

/-- The room on a page from a column on. -/
def roomInWords (width column : Nat) : Int := wrap (signed width - signed column)

theorem indentedInWords_eq {indent : Nat} {n : Int} (hindent : indent < 9223372036854775808)
    (h : IsSigned (indent + n)) : indentedInWords indent n = indented indent n := by
  rw [indentedInWords, signed_of_lt hindent, wrap_of_isSigned h, indented]

theorem indented_lt {indent : Nat} {n : Int} (h : IsSigned (indent + n)) :
    indented indent n < 9223372036854775808 := by
  obtain ⟨-, hhigh⟩ := h
  rw [indented]
  omega

/-- The text is a text of some word's length, and the column behind it is a word. -/
structure TextInBounds (s : String) (column : Nat) : Prop where
  width : textWidth s < 9223372036854775808
  column : column + textWidth s < 18446744073709551616

theorem TextInBounds.columnInWords_eq {s : String} {column : Nat} (h : TextInBounds s column) :
    columnInWords column s = column + textWidth s :=
  Nat.mod_eq_of_lt h.column

/-! ## The layout in words -/

/-- What is left of the room on a line behind a text. -/
def leftInWords (room : Int) (s : String) : Int := wrap (room - signed (textWidth s))

/-- A text, and then the rest. -/
def Rest.textInWords (s : String) (rest : Rest) : Rest where
  fits room column :=
    0 ≤ leftInWords room s && rest.fits (leftInWords room s) (columnInWords column s)
  layout column := .emit (.text s) fun _ => rest.layout (columnInWords column s)

/-- On a page, the first of two ways to go on if it fits, and otherwise the second. -/
def Rest.chooseInWords (width : Nat) (flat broken : Rest) : Rest where
  fits := broken.fits
  layout column :=
    if 0 ≤ roomInWords width column && flat.fits (roomInWords width column) column
    then flat.layout column else broken.layout column

/-- The document, and then the rest. -/
def Doc.inWords (width : Nat) (d : Doc) (indent : Nat) (mode : Mode) (rest : Rest) : Rest :=
  match d with
  | .nil => rest
  | .text s => rest.textInWords s
  | .seq a b => a.inWords width indent mode (b.inWords width indent mode rest)
  | .indent n d => d.inWords width (indentedInWords indent n) mode rest
  | .line flat broken =>
    match mode with
    | .flat =>
      ⟨(rest.textInWords flat).fits,
        if flat.isEmpty then rest.layout else (rest.textInWords flat).layout⟩
    | .broken =>
      ⟨fun _ _ => true, fun _ => .emit (.newline indent) fun _ =>
        if broken.isEmpty then rest.layout indent else (rest.textInWords broken).layout indent⟩
  | .hardline =>
    ⟨fun _ _ => mode == .broken, fun _ => .emit (.newline indent) fun _ => rest.layout indent⟩
  | .union a b =>
    match mode with
    | .flat => a.inWords width indent .flat rest
    | .broken =>
      .chooseInWords width (a.inWords width indent .broken rest)
        (b.inWords width indent .broken rest)
  | .flatten d => d.inWords width indent .flat rest
  | .column f => .fromColumn fun column => (f column).inWords width indent mode rest
  | .nesting f => (f indent).inWords width indent mode rest

/-- The layout of a document on a page of some width, from column `start` on, in words. -/
def bestInWords (width start : Nat) (d : Doc) : Fragments :=
  (d.inWords width 0 .broken .nothing).layout start

/-- From a column on, no layout of the document comes to a number that is too large for its word,
and neither does finding the room where a union is resolved. -/
def Doc.InBounds (width : Nat) (d : Doc) (indent : Nat) (mode : Mode) (column : Nat) : Prop :=
  match d with
  | .nil | .hardline => True
  | .text s => TextInBounds s column
  | .seq a b => a.InBounds width indent mode column ∧
      ∀ out ∈ a.layouts indent mode column, b.InBounds width indent mode (columnAfter column out)
  | .indent n d => IsSigned n ∧ IsSigned (indent + n) ∧
      d.InBounds width (indented indent n) mode column
  | .line flat broken =>
    match mode with
    | .flat => TextInBounds flat column
    | .broken => TextInBounds broken indent
  | .union a b =>
    match mode with
    | .flat => a.InBounds width indent mode column
    | .broken => IsSigned (signed width - signed column) ∧
        a.InBounds width indent mode column ∧ b.InBounds width indent mode column
  | .flatten d => d.InBounds width indent .flat column
  | .column f => (f column).InBounds width indent mode column
  | .nesting f => (f indent).InBounds width indent mode column

/-! ## In bounds, nothing changes -/

/-- The two ways to go on do the same in a column, for any room that is a word. -/
structure Rest.SameInWords (r s : Rest) (column : Nat) : Prop where
  fits : ∀ room, 0 ≤ room → room < 9223372036854775808 → r.fits room column = s.fits room column
  layout : r.layout column = s.layout column

namespace Rest.SameInWords

variable {r r' s s' : Rest} {width column : Nat}

theorem text {t : String} (ht : TextInBounds t column)
    (h : r.SameInWords s (column + textWidth t)) :
    (r.text t).SameInWords (s.textInWords t) column where
  fits room hroom hword := by
    have hwidth := ht.width
    have hleft : leftInWords room t = room - textWidth t := by
      rw [leftInWords, signed_of_lt hwidth]
      exact wrap_of_isSigned ⟨by omega, by omega⟩
    show fitsText (textWidth t) r.fits room column =
      (0 ≤ leftInWords room t && s.fits (leftInWords room t) (columnInWords column t))
    rw [fitsText, hleft, ht.columnInWords_eq]
    by_cases hfits : 0 ≤ room - textWidth t
    · rw [h.fits _ hfits (by omega)]
    · rw [decide_eq_false hfits, Bool.false_and, Bool.false_and]
  layout := by
    show Fragments.emit (.text t) (fun _ => r.layout (column + textWidth t)) =
      .emit (.text t) fun _ => s.layout (columnInWords column t)
    rw [ht.columnInWords_eq, h.layout]

theorem choose (hroom : IsSigned (signed width - signed column))
    (hflat : r.SameInWords r' column) (hbroken : s.SameInWords s' column) :
    (choose width r s).SameInWords (chooseInWords width r' s') column where
  fits := hbroken.fits
  layout := by
    have hword : roomInWords width column = signed width - signed column := wrap_of_isSigned hroom
    rw [Rest.choose, Rest.chooseInWords]
    simp only [hword]
    by_cases hpos : 0 ≤ signed width - signed column
    · simp only [hflat.fits _ hpos hroom.2, hflat.layout, hbroken.layout]
    · simp only [decide_eq_false hpos, Bool.false_and, Bool.false_eq_true, if_false,
        hbroken.layout]

/-- A soft line break in flat mode is its text, which is looked at even if it is empty. -/
theorem flatLine {flat : String} (broken : String) {indent : Nat}
    (ht : TextInBounds flat column)
    (h : r.SameInWords s (columnAfter column (separator flat))) :
    ((Doc.line flat broken).before width indent .flat r).SameInWords
      ((Doc.line flat broken).inWords width indent .flat s) column := by
  by_cases hempty : flat.isEmpty
  · have hwidth : textWidth flat = 0 := by
      rw [textWidth, String.isEmpty_iff.1 hempty]
      rfl
    rw [separator, if_pos hempty, columnAfter] at h
    refine ⟨(text ht (by rwa [hwidth])).fits, ?_⟩
    show (if flat.isEmpty then r.layout column else emitText flat r column) =
      (if flat.isEmpty then s.layout else (s.textInWords flat).layout) column
    rw [if_pos hempty, if_pos hempty, h.layout]
  · rw [separator, if_neg hempty, columnAfter, columnAfter] at h
    refine ⟨(text ht h).fits, ?_⟩
    show (if flat.isEmpty then r.layout column else emitText flat r column) =
      (if flat.isEmpty then s.layout else (s.textInWords flat).layout) column
    rw [if_neg hempty, if_neg hempty]
    exact (text ht h).layout

theorem brokenLine (flat : String) {broken : String} {indent : Nat}
    (ht : TextInBounds broken indent)
    (h : r.SameInWords s (columnAfter column (.newline indent :: separator broken))) :
    ((Doc.line flat broken).before width indent .broken r).SameInWords
      ((Doc.line flat broken).inWords width indent .broken s) column := by
  refine ⟨fun _ _ _ => rfl, ?_⟩
  show Fragments.emit (.newline indent) (fun _ =>
      if broken.isEmpty then r.layout indent else emitText broken r indent) =
    .emit (.newline indent) fun _ =>
      if broken.isEmpty then s.layout indent else (s.textInWords broken).layout indent
  rw [columnAfter] at h
  by_cases hempty : broken.isEmpty
  · rw [separator, if_pos hempty, columnAfter] at h
    simp only [if_pos hempty, h.layout]
  · rw [separator, if_neg hempty, columnAfter, columnAfter] at h
    have htext : emitText broken r indent = (s.textInWords broken).layout indent :=
      (text ht h).layout
    simp only [if_neg hempty, htext]

end Rest.SameInWords

/-- In bounds, a document does the same in words, provided that what comes after it does in every
column in which a layout of the document ends. -/
theorem sameInWords_inWords (width : Nat) (d : Doc) :
    ∀ {indent column : Nat} {mode : Mode} {r s : Rest}, indent < 9223372036854775808 →
      d.InBounds width indent mode column →
      (∀ out ∈ d.layouts indent mode column, r.SameInWords s (columnAfter column out)) →
      (d.before width indent mode r).SameInWords (d.inWords width indent mode s) column := by
  induction d with
  | nil => exact fun _ _ hrest => hrest [] rfl
  | text t => exact fun _ ht hrest => .text ht (hrest [.text t] rfl)
  | hardline =>
    intro indent column mode r s _ _ hrest
    have hlayout : r.layout indent = s.layout indent := (hrest [.newline indent] rfl).layout
    refine ⟨fun _ _ _ => rfl, ?_⟩
    show Fragments.emit (.newline indent) (fun _ => r.layout indent) =
      .emit (.newline indent) fun _ => s.layout indent
    rw [hlayout]
  | line flat broken =>
    intro indent column mode r s _ ht hrest
    cases mode with
    | flat => exact .flatLine broken ht (hrest _ rfl)
    | broken => exact .brokenLine flat ht (hrest _ rfl)
  | seq a b iha ihb =>
    intro indent column mode r s hindent hbounds hrest
    rw [before_seq, Doc.inWords]
    refine iha hindent hbounds.1 fun first hfirst => ?_
    refine ihb hindent (hbounds.2 first hfirst) fun second hsecond => ?_
    rw [← columnAfter_append]
    exact hrest _ ⟨first, hfirst, second, hsecond, rfl⟩
  | indent n d ih =>
    intro indent column mode r s hindent ⟨_, hsum, hbounds⟩ hrest
    rw [before_indent, Doc.inWords, indentedInWords_eq hindent hsum]
    exact ih (indented_lt hsum) hbounds hrest
  | union a b iha ihb =>
    intro indent column mode r s hindent hbounds hrest
    cases mode with
    | flat => exact iha hindent hbounds hrest
    | broken =>
      obtain ⟨hroom, hflat, hbroken⟩ := hbounds
      exact .choose hroom (iha hindent hflat fun out hout => hrest out (.inl hout))
        (ihb hindent hbroken fun out hout => hrest out (.inr hout))
  | flatten d ih => exact fun hindent hbounds hrest => ih hindent hbounds hrest
  | column f ih =>
    intro indent column mode r s hindent hbounds hrest
    have hsame := ih column hindent hbounds hrest
    exact ⟨hsame.fits, hsame.layout⟩
  | nesting f ih =>
    exact fun {indent} _ _ _ _ hindent hbounds hrest => ih indent hindent hbounds hrest

/-- **In bounds, the layout in words is the layout.** -/
theorem bestInWords_eq {width start : Nat} {d : Doc} (h : d.InBounds width 0 .broken start) :
    bestInWords width start d = best width start d := by
  rw [best_eq_before, bestInWords]
  exact (sameInWords_inWords width d (by decide) h fun _ _ => ⟨fun _ _ _ => rfl, rfl⟩).layout.symm

/-- Beyond the bounds, a line break that is far to the right in the one is at the margin in the
other. -/
example :
    let far : Doc := .indent 9223372036854775807 (.indent 1 .hardline)
    (best 80 0 far).toList = [.newline 9223372036854775808] ∧
      (bestInWords 80 0 far).toList = [.newline 0] := by decide

/-! ## The layout is one of the document -/

/-- A name with a type that hangs from where it starts. -/
def typedName : Doc :=
  .seq (.text "f : ") (Doc.align (.group (.seq (.text "Int") (.seq .space (.text "-> Int")))))

theorem inBounds_typedName {width : Nat} (h : width < 9223372036854775808) :
    typedName.InBounds width 0 .broken 0 := by
  let type : Doc := .seq (.text "Int") (.seq .space (.text "-> Int"))
  have hroom : IsSigned (signed width - signed 4) := by
    rw [signed_of_lt h, signed_of_lt (by decide)]
    exact ⟨by omega, by omega⟩
  have htype : ∀ mode, type.InBounds width 4 mode 4 := by
    intro mode
    refine ⟨⟨by decide, by decide⟩, ?_⟩
    rintro _ rfl
    cases mode
    all_goals
      refine ⟨⟨by decide, by decide⟩, ?_⟩
      rintro _ rfl
      exact ⟨by decide, by decide⟩
  have hgroup : (Doc.indent 4 type.group).InBounds width 0 .broken 4 :=
    ⟨by decide, by decide, hroom, htype .flat, htype .broken⟩
  refine ⟨⟨by decide, by decide⟩, ?_⟩
  rintro _ rfl
  exact hgroup

end ElmWire.Layout
