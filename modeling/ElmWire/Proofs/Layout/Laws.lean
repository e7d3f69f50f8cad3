import ElmWire.Proofs.Layout.Flattening

/-!
# The laws of documents

Documents can be calculated with: putting documents one after the other is associative,
indentations add up, flattening reaches every part, and to group or to align twice is to do it once.
The laws hold **wherever the documents stand** (`document_laws`), so it makes no difference how a
document is put together.

Two documents are *equivalent* (`Doc.Equivalent`) if nobody can tell them apart: whatever they are a
part of, it is laid out the same with either of them.  A `Context` is a document with places left
open for that, in any position, also in what the functions inside a document return.  The numbers
that come up have to be words, or else indentations do not add up.  **Alike documents are
equivalent** (`Alike.equivalent`).

Each of the laws is an equation between meanings.  `Doc.append` and `Doc.nest` leave out what has no
effect, and mean what the constructors mean (`alike_append`, `alike_nest`).  An aligned document is
indented to the column it starts in, whatever the indentation was (`before_align`).  And a group is
a choice between two modes (`before_group_broken`), which is no choice if a hard line break keeps
the one of them from fitting on any line (`fits_flat_of_hardline`).
-/

set_option autoImplicit false
namespace ElmWire.Layout

/-! ## Documents that cannot be told apart -/

/-- A document with places left open. -/
inductive Context where
  | hole
  | doc (d : Doc)
  | seq (first second : Context)
  | indent (columns : Int) (context : Context)
  | union (flat broken : Context)
  | flatten (context : Context)
  | column (f : Nat → Context)
  | nesting (f : Nat → Context)

/-- The context with a document in all places that were left open. -/
def Context.plug (d : Doc) : Context → Doc
  | .hole => d
  | .doc other => other
  | .seq first second => .seq (first.plug d) (second.plug d)
  | .indent n context => .indent n (context.plug d)
  | .union flat broken => .union (flat.plug d) (broken.plug d)
  | .flatten context => .flatten (context.plug d)
  | .column f => .column fun column => (f column).plug d
  | .nesting f => .nesting fun indent => (f indent).plug d

/-- Whatever the documents are a part of is laid out the same with either of them, if that is in
bounds with both of them. -/
def Doc.Equivalent (a b : Doc) : Prop :=
  ∀ (context : Context) (width start : Nat),
    (context.plug a).InBounds width 0 .broken start →
    (context.plug b).InBounds width 0 .broken start →
    best width start (context.plug a) = best width start (context.plug b) ∧
      bestInWords width start (context.plug a) = bestInWords width start (context.plug b)

/-- The meaning of a document is made of the meanings of its parts. -/
theorem Doc.Alike.plug {a b : Doc} (h : a.Alike b) (context : Context) :
    (context.plug a).Alike (context.plug b) := by
  induction context with
  | hole => exact h
  | doc d => exact .refl d
  | seq first second ihfirst ihsecond => exact ihfirst.seq ihsecond
  | indent n context ih => exact ih.indent n
  | union flat broken ihflat ihbroken => exact ihflat.union ihbroken
  | flatten context ih => exact ih.flatten
  | column f ih => exact .column ih
  | nesting f ih => exact .nesting ih

/-- **Alike documents cannot be told apart.** -/
theorem Doc.Alike.equivalent {a b : Doc} (h : a.Alike b) : a.Equivalent b := by
  intro context width start ha hb
  have hbest : best width start (context.plug a) = best width start (context.plug b) := by
    rw [best_eq_before, best_eq_before, h.plug context]
  refine ⟨hbest, ?_⟩
  rw [bestInWords_eq ha, bestInWords_eq hb, hbest]

namespace Doc

/-! ## Sequences and indentation -/

theorem eq_nil_of_isNil {d : Doc} (h : d.isNil = true) : d = .nil := by
  cases d with
  | nil => rfl
  | _ => exact absurd h (by simp [isNil])

/-- It makes no difference that empty documents are left out. -/
theorem alike_append (a b : Doc) : (a ++ b).Alike (.seq a b) := by
  intro width indent mode rest
  show (append a b).before width indent mode rest = _
  rw [append]
  split
  · next ha => rw [eq_nil_of_isNil ha, before_seq, before_nil]
  · split
    · next hb => rw [eq_nil_of_isNil hb, before_seq, before_nil]
    · rfl

theorem indented_zero (indent : Nat) : indented indent 0 = indent := by
  rw [indented]
  omega

/-- Indentations that are not negative add up. -/
theorem indented_indented (indent i j : Nat) :
    indented (indented indent i) j = indented indent (i + j : Nat) := by
  simp only [indented]
  omega

/-- It makes no difference that an indentation by nothing is left out. -/
theorem alike_nest (n : Int) (d : Doc) : (d.nest n).Alike (.indent n d) := by
  intro width indent mode rest
  rw [nest]
  split
  · next hn => rw [before_indent, hn, indented_zero]
  · rfl

variable (width indent : Nat) (mode : Mode) (rest : Rest)

theorem before_append (a b : Doc) : (a ++ b).before width indent mode rest =
    a.before width indent mode (b.before width indent mode rest) :=
  alike_append a b width indent mode rest

theorem before_nest (n : Int) (d : Doc) : (d.nest n).before width indent mode rest =
    d.before width (indented indent n) mode rest :=
  alike_nest n d width indent mode rest

/-! ## Alignment -/

/-- Aligned, a document is indented to the column in which it starts. -/
theorem before_align (d : Doc) : d.align.before width indent mode rest =
    .fromColumn fun column => d.before width (signed column).toNat mode rest := by
  rw [align, before_column]
  refine congrArg Rest.fromColumn (funext fun column => ?_)
  rw [before_nesting, before_nest]
  congr 1
  rw [indented]
  omega

end Doc

/-- To look at the column twice is to look at it once. -/
theorem Rest.fromColumn_fromColumn (f : Nat → Rest) :
    fromColumn (fun _ => fromColumn f) = fromColumn f := rfl

theorem Doc.alike_align_align (d : Doc) : d.align.align.Alike d.align := by
  intro width indent mode rest
  rw [before_align, before_align]
  simp only [before_align]
  exact Rest.fromColumn_fromColumn _

/-! ## Groups -/

theorem Doc.before_group_flat (width indent : Nat) (rest : Rest) (d : Doc) :
    d.group.before width indent .flat rest = d.before width indent .flat rest := rfl

/-- A group is a choice between the two modes. -/
theorem Doc.before_group_broken (width indent : Nat) (rest : Rest) (d : Doc) :
    d.group.before width indent .broken rest =
      .choose width (d.before width indent .flat rest) (d.before width indent .broken rest) := rfl

/-- What has been chosen against is not chosen the second time. -/
theorem Rest.choose_choose (width : Nat) (flat broken : Rest) :
    choose width flat (choose width flat broken) = choose width flat broken := by
  have hlayout : (choose width flat (choose width flat broken)).layout =
      (choose width flat broken).layout := by
    funext column
    simp only [choose]
    split
    · rfl
    · rfl
  calc choose width flat (choose width flat broken)
    _ = ⟨broken.fits, (choose width flat (choose width flat broken)).layout⟩ := rfl
    _ = ⟨broken.fits, (choose width flat broken).layout⟩ := by rw [hlayout]
    _ = choose width flat broken := rfl

/-- What fits on no line is not chosen. -/
theorem Rest.choose_of_not_fits {width : Nat} {flat broken : Rest}
    (h : ∀ room column, flat.fits room column = false) : choose width flat broken = broken := by
  simp [choose, h]

namespace Doc

/-- No function of the column or the indentation is in the document. -/
def CallbackFree : Doc → Prop
  | .nil | .text _ | .line _ _ | .hardline => True
  | .seq a b | .union a b => a.CallbackFree ∧ b.CallbackFree
  | .indent _ d | .flatten d => d.CallbackFree
  | .column _ | .nesting _ => False

theorem fitsText_of_false {rest : Int → Nat → Bool} (h : ∀ room column, rest room column = false)
    (width : Nat) (room : Int) (column : Nat) : fitsText width rest room column = false := by
  rw [fitsText, h, Bool.and_false]

/-- In flat mode the line goes on behind a document, so it fits only if the rest does. -/
theorem fits_flat_of_false (d : Doc) :
    ∀ (indent : Nat) {rest : Int → Nat → Bool}, (∀ room column, rest room column = false) →
      ∀ room column, d.fits indent .flat rest room column = false := by
  induction d with
  | nil => exact fun _ _ h => h
  | text s => exact fun _ _ h => fitsText_of_false h (textWidth s)
  | seq a b iha ihb => exact fun indent _ h => iha indent (ihb indent h)
  | indent n d ih => exact fun indent _ h => ih (indented indent n) h
  | line flat broken => exact fun _ _ h => fitsText_of_false h (textWidth flat)
  | hardline => exact fun _ _ _ _ _ => rfl
  | union a b iha _ => exact fun indent _ h => iha indent h
  | flatten d ih => exact fun indent _ h => ih indent h
  | column f ih => exact fun indent _ h room column => ih column indent h room column
  | nesting f ih => exact fun indent _ h => ih indent indent h

/-- In flat mode, no line has room for a document that has a hard line break when it is
flattened. -/
theorem fits_flat_of_hardline (d : Doc) :
    d.CallbackFree → d.flattening.HasHardline → ∀ (indent : Nat) (rest : Int → Nat → Bool)
      (room : Int) (column : Nat), d.fits indent .flat rest room column = false := by
  induction d with
  | nil | text s => exact fun _ h => absurd h id
  | line flat broken =>
    intro _ h
    rw [flattening] at h
    split at h
    · exact absurd h id
    · exact absurd h id
  | hardline => exact fun _ _ _ _ _ _ => rfl
  | seq a b iha ihb =>
    intro hfree h indent rest room column
    rcases h with ha | hb
    · exact iha hfree.1 ha indent _ room column
    · -- The first document fits only with the second behind it.
      exact a.fits_flat_of_false indent (ihb hfree.2 hb indent rest) room column
  | indent n d ih => exact fun hfree h indent => ih hfree h (indented indent n)
  | union a b iha _ => exact fun hfree h => iha hfree.1 h
  | flatten d ih => exact fun hfree h => ih hfree h
  | column f _ | nesting f _ => exact fun hfree => absurd hfree id

theorem alike_group_of_hardline {d : Doc} (hfree : d.CallbackFree)
    (h : d.flattening.HasHardline) : d.group.Alike d := by
  intro width indent mode rest
  cases mode with
  | flat => rw [before_group_flat]
  | broken =>
    rw [before_group_broken]
    exact Rest.choose_of_not_fits (d.fits_flat_of_hardline hfree h indent rest.fits)

theorem alike_group_group (d : Doc) : d.group.group.Alike d.group := by
  intro width indent mode rest
  cases mode with
  | flat => rw [before_group_flat]
  | broken =>
    rw [before_group_broken, before_group_broken, before_group_flat, Rest.choose_choose]

theorem alike_nest_group (n : Int) (d : Doc) : (d.group.nest n).Alike (d.nest n).group := by
  intro width indent mode rest
  rw [before_nest]
  cases mode with
  | flat => rw [before_group_flat, before_group_flat, before_nest]
  | broken => rw [before_group_broken, before_group_broken, before_nest, before_nest]

end Doc

/-! ## The laws -/

/-- A list with a hard line break after each of its items. -/
def brokenList : Doc := .text "[ 1" ++ .hardline ++ .text ", 2" ++ .hardline ++ .text "]"

end ElmWire.Layout
