import ElmWire.Proofs.Layout.Words

/-!
# Flattening at once

A document can be flattened when the layout comes to it, by going on in flat mode, or beforehand, by
building another document.  `Doc.flatten` stands for the first.  `Doc.flattening` is the second: it
goes through the document, puts the flat form of each soft line break in its place, and leaves
out the alternatives that are not for one line.

`Doc.eager` is the document with all that is to be flattened flattened beforehand.  **It is laid out
in the same way on every page** (`best_eager`), unless a hard line break gets in between: in flat
mode a line with one does not fit, and in a document that was flattened beforehand there is no flat
mode any more.

The two documents meet the same columns on the way, and only there do they have to agree.
`SameFrom` says that two documents agree from a column on, provided that what comes after them
agrees in the columns in which they end.
-/

set_option autoImplicit false
namespace ElmWire.Layout

/-! ## Flattening a document beforehand -/

/-- The document with its soft line breaks in their flat form. -/
def Doc.flattening : Doc → Doc
  | .nil => .nil
  | .text s => .text s
  | .seq a b => .seq a.flattening b.flattening
  | .indent n d => .indent n d.flattening
  | .line flat _ => if flat.isEmpty then .nil else .text flat
  | .hardline => .hardline
  | .union flat _ => flat.flattening
  | .flatten d => d.flattening
  | .column f => .column fun column => (f column).flattening
  | .nesting f => .nesting fun indent => (f indent).flattening

/-- The document with everything that is to be flattened flattened beforehand. -/
def Doc.eager : Doc → Doc
  | .nil => .nil
  | .text s => .text s
  | .seq a b => .seq a.eager b.eager
  | .indent n d => .indent n d.eager
  | .line flat broken => .line flat broken
  | .hardline => .hardline
  | .union flat broken => .union flat.eager broken.eager
  | .flatten d => d.flattening
  | .column f => .column fun column => (f column).eager
  | .nesting f => .nesting fun indent => (f indent).eager

/-- Some layout of the document from a column on comes to a hard line break. -/
def Doc.CanBreak (d : Doc) (indent : Nat) (mode : Mode) (column : Nat) : Prop :=
  match d with
  | .nil | .text _ | .line _ _ => False
  | .seq a b => a.CanBreak indent mode column ∨
      ∃ out ∈ a.layouts indent mode column, b.CanBreak indent mode (columnAfter column out)
  | .indent n d => d.CanBreak (indented indent n) mode column
  | .hardline => True
  | .union a b =>
    match mode with
    | .flat => a.CanBreak indent mode column
    | .broken => a.CanBreak indent mode column ∨ b.CanBreak indent mode column
  | .flatten d => d.CanBreak indent .flat column
  | .column f => (f column).CanBreak indent mode column
  | .nesting f => (f indent).CanBreak indent mode column

/-- There is a hard line break in the document, or in what a function in it returns. -/
def Doc.HasHardline : Doc → Prop
  | .nil | .text _ | .line _ _ => False
  | .hardline => True
  | .seq a b | .union a b => a.HasHardline ∨ b.HasHardline
  | .indent _ d | .flatten d => d.HasHardline
  | .column f | .nesting f => ∃ n, (f n).HasHardline

theorem Doc.hasHardline_nest (n : Int) (d : Doc) : (d.nest n).HasHardline ↔ d.HasHardline := by
  rw [nest]
  split
  · rfl
  · rfl

/-- A document without hard line breaks never comes to one. -/
theorem Doc.hasHardline_of_canBreak (d : Doc) :
    ∀ {indent : Nat} {mode : Mode} {column : Nat}, d.CanBreak indent mode column →
      d.HasHardline := by
  induction d with
  | nil | text s | line flat broken => exact False.elim
  | hardline => exact fun _ => trivial
  | seq a b iha ihb =>
    rintro indent mode column (ha | ⟨out, -, hb⟩)
    · exact .inl (iha ha)
    · exact .inr (ihb hb)
  | indent n d ih | flatten d ih => exact fun h => ih h
  | union a b iha ihb =>
    intro indent mode column h
    cases mode with
    | flat => exact .inl (iha h)
    | broken => exact h.imp iha ihb
  | column f ih | nesting f ih => exact fun h => ⟨_, ih _ h⟩

/-! ## Agreeing from a column on -/

/-- The two ways to go on do the same in a column.  A line that is too long already is never looked
at. -/
structure Rest.Same (r s : Rest) (column : Nat) : Prop where
  fits : ∀ room, 0 ≤ room → r.fits room column = s.fits room column
  layout : r.layout column = s.layout column

theorem Rest.Same.text {r s : Rest} {t : String} {column : Nat}
    (h : r.Same s (column + textWidth t)) : (r.text t).Same (s.text t) column where
  fits room _ := by
    show fitsText (textWidth t) r.fits room column = fitsText (textWidth t) s.fits room column
    rw [fitsText, fitsText]
    by_cases hroom : 0 ≤ room - textWidth t
    · rw [h.fits _ hroom]
    · rw [decide_eq_false hroom, Bool.false_and, Bool.false_and]
  layout := by
    show emitText t r column = emitText t s column
    rw [emitText, emitText, h.layout]

theorem Rest.Same.choose {r r' s s' : Rest} {width column : Nat} (hflat : r.Same r' column)
    (hbroken : s.Same s' column) : (choose width r s).Same (choose width r' s') column where
  fits := hbroken.fits
  layout := by
    rw [Rest.choose, Rest.choose]
    by_cases hroom : 0 ≤ signed width - signed column
    · simp only [hflat.fits _ hroom, hflat.layout, hbroken.layout]
    · simp only [decide_eq_false hroom, Bool.false_and, Bool.false_eq_true, if_false,
        hbroken.layout]

/-- From a column on, the first document in one mode does what the second does in another, provided
that what comes after them does the same in every column in which the first can end. -/
def SameFrom (width indent column : Nat) (a : Doc) (mode : Mode) (b : Doc) (mode' : Mode) : Prop :=
  ∀ r s : Rest, (∀ out ∈ a.layouts indent mode column, r.Same s (columnAfter column out)) →
    (a.before width indent mode r).Same (b.before width indent mode' s) column

namespace SameFrom

variable {width indent column : Nat} {mode mode' : Mode} {a a' b b' d d' : Doc}

theorem nil : SameFrom width indent column .nil mode .nil mode' := fun _ _ hrest => hrest [] rfl

theorem text (t : String) : SameFrom width indent column (.text t) mode (.text t) mode' :=
  fun _ _ hrest => (hrest [.text t] rfl).text

/-- The second documents have to agree wherever the first ones can end. -/
theorem seq (ha : SameFrom width indent column a mode a' mode')
    (hb : ∀ out ∈ a.layouts indent mode column,
      SameFrom width indent (columnAfter column out) b mode b' mode') :
    SameFrom width indent column (.seq a b) mode (.seq a' b') mode' := by
  intro r s hrest
  rw [before_seq, before_seq]
  refine ha _ _ fun first hfirst => hb first hfirst r s fun second hsecond => ?_
  rw [← columnAfter_append]
  exact hrest _ ⟨first, hfirst, second, hsecond, rfl⟩

theorem union (ha : SameFrom width indent column a .broken a' .broken)
    (hb : SameFrom width indent column b .broken b' .broken) :
    SameFrom width indent column (.union a b) .broken (.union a' b') .broken := by
  intro r s hrest
  rw [before_union_broken, before_union_broken]
  exact (ha r s fun out hout => hrest out (.inl hout)).choose
    (hb r s fun out hout => hrest out (.inr hout))

theorem fromColumn {f g : Nat → Doc}
    (h : SameFrom width indent column (f column) mode (g column) mode') :
    SameFrom width indent column (.column f) mode (.column g) mode' := by
  intro r s hrest
  exact ⟨(h r s hrest).fits, (h r s hrest).layout⟩

/-- In flat mode, a soft line break is the text that stands for it. -/
theorem flatLine (flat broken : String) : SameFrom width indent column (.line flat broken) .flat
    (Doc.line flat broken).flattening mode' := by
  intro r s hrest
  have hsame := hrest (separator flat) rfl
  rw [Doc.flattening]
  by_cases hempty : flat.isEmpty
  · -- The look ahead finds a text without any width there, and the layout nothing at all.
    have hwidth : textWidth flat = 0 := by
      rw [textWidth, String.isEmpty_iff.1 hempty]
      rfl
    rw [separator, if_pos hempty, columnAfter] at hsame
    rw [if_pos hempty, before_nil]
    refine ⟨fun room hroom => ?_, ?_⟩
    · show fitsText (textWidth flat) r.fits room column = s.fits room column
      rw [fitsText, hwidth]
      simpa [hroom] using hsame.fits room hroom
    · show (if flat.isEmpty then r.layout column else emitText flat r column) = s.layout column
      rw [if_pos hempty, hsame.layout]
  · rw [separator, if_neg hempty] at hsame
    have hlayout : (Doc.line flat broken).layout width indent .flat r = emitText flat r :=
      funext fun _ => if_neg hempty
    have htext : (Doc.line flat broken).before width indent .flat r = r.text flat := by
      rw [Doc.before, hlayout]
      rfl
    rw [if_neg hempty, htext, before_text]
    exact hsame.text

theorem brokenLine (flat broken : String) : SameFrom width indent column (.line flat broken)
    .broken (.line flat broken) .broken := by
  intro r s hrest
  have hsame := hrest (.newline indent :: separator broken) rfl
  refine ⟨fun room _ => rfl, ?_⟩
  show Fragments.emit (.newline indent) (fun _ =>
      if broken.isEmpty then r.layout indent else emitText broken r indent) =
    .emit (.newline indent) fun _ =>
      if broken.isEmpty then s.layout indent else emitText broken s indent
  by_cases hempty : broken.isEmpty
  · rw [separator, if_pos hempty, columnAfter, columnAfter] at hsame
    simp only [if_pos hempty, hsame.layout]
  · rw [separator, if_neg hempty, columnAfter] at hsame
    have htext : emitText broken r indent = emitText broken s indent := hsame.text.layout
    simp only [if_neg hempty, htext]

end SameFrom

/-! ## Flattening now or later -/

/-- Where it comes to no hard line break, a document in flat mode does what its flattening does in
any mode. -/
theorem sameFrom_flattening (width : Nat) (d : Doc) :
    ∀ (indent column : Nat) (mode : Mode), ¬ d.CanBreak indent .flat column →
      SameFrom width indent column d .flat d.flattening mode := by
  induction d with
  | nil => exact fun _ _ _ _ => .nil
  | text s => exact fun _ _ _ _ => .text s
  | line flat broken => exact fun _ _ _ _ => .flatLine flat broken
  | hardline => exact fun _ _ _ h => absurd trivial h
  | seq a b iha ihb =>
    intro indent column mode h
    obtain ⟨ha, hb⟩ := not_or.1 h
    exact (iha indent column mode ha).seq fun out hout =>
      ihb indent _ mode fun hbreak => hb ⟨out, hout, hbreak⟩
  | indent n d ih => exact fun indent column mode h => ih (indented indent n) column mode h
  | union a b iha _ => exact fun indent column mode h => iha indent column mode h
  | flatten d ih => exact fun indent column mode h => ih indent column mode h
  | column f ih => exact fun indent column mode h => .fromColumn (ih column indent column mode h)
  | nesting f ih => exact fun indent column mode h => ih indent indent column mode h

/-- Where it comes to no hard line break, a document does what it does with everything flattened
beforehand. -/
theorem sameFrom_eager (width : Nat) (d : Doc) :
    ∀ indent column : Nat, ¬ d.CanBreak indent .broken column →
      SameFrom width indent column d .broken d.eager .broken := by
  induction d with
  | nil => exact fun _ _ _ => .nil
  | text s => exact fun _ _ _ => .text s
  | line flat broken => exact fun _ _ _ => .brokenLine flat broken
  | hardline => exact fun _ _ h => absurd trivial h
  | seq a b iha ihb =>
    intro indent column h
    obtain ⟨ha, hb⟩ := not_or.1 h
    exact (iha indent column ha).seq fun out hout =>
      ihb indent _ fun hbreak => hb ⟨out, hout, hbreak⟩
  | indent n d ih => exact fun indent column h => ih (indented indent n) column h
  | union a b iha ihb =>
    intro indent column h
    obtain ⟨ha, hb⟩ := not_or.1 h
    exact (iha indent column ha).union (ihb indent column hb)
  | flatten d _ => exact fun indent column h => sameFrom_flattening width d indent column .broken h
  | column f ih => exact fun indent column h => .fromColumn (ih column indent column h)
  | nesting f ih => exact fun indent column h => ih indent indent column h

/-- **Flattening a document when it is reached is as good as flattening it beforehand**, if no
layout of the document comes to a hard line break. -/
theorem best_eager (width start : Nat) (d : Doc) (h : ¬ d.CanBreak 0 .broken start) :
    best width start d = best width start d.eager := by
  rw [best_eq_before, best_eq_before]
  exact (sameFrom_eager width d 0 start h .nothing .nothing fun _ _ => ⟨fun _ _ => rfl, rfl⟩).layout

/-- The group that hangs from a column is flattened beforehand wherever it hangs from, and is broken
on a narrow page just the same. -/
theorem best_eager_typedName :
    ¬ typedName.CanBreak 0 .broken 0 ∧
      best 12 0 typedName = best 12 0 typedName.eager ∧
      (best 12 0 typedName.eager).toList =
        [.text "f : ", .text "Int", .newline 4, .text "-> Int"] ∧
      best 20 0 typedName = best 20 0 typedName.eager ∧
      (best 20 0 typedName.eager).toList =
        [.text "f : ", .text "Int", .text " ", .text "-> Int"] := by
  have hbreak : ¬ typedName.CanBreak 0 .broken 0 := by
    refine mt typedName.hasHardline_of_canBreak ?_
    simp [typedName, Doc.HasHardline, Doc.align, Doc.hasHardline_nest, Doc.group, Doc.space]
  exact ⟨hbreak, best_eager 12 0 typedName hbreak, rfl, best_eager 20 0 typedName hbreak, rfl⟩

end ElmWire.Layout
