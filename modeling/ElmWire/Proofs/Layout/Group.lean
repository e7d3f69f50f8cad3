import ElmWire.Proofs.Layout.Laws
import Mathlib.Data.Set.Insert

/-!
# Documents in one line

In flat mode there is nothing to decide: whatever the page, a document has one layout
(`Doc.flatLayout`), and what comes after it makes no difference either.  It is one line unless the
document comes to a hard line break.

Looking ahead and laying out are two different recursions, which each keep a column of their own and
hand it to the functions in the document.  In flat mode they go the same way: a look ahead finds
room for a document **exactly if its flat layout is one line, that line fits, and so does the rest
behind it** (`fits_flat_iff`).  A look ahead that has run out of room stops early, and no later text
could have made up for that.

For a group that is a whole document nothing comes behind, so it is flat exactly when it fits the
page in one line (`best_group`).
-/

set_option autoImplicit false
namespace ElmWire.Layout

/-! ## Lines of fragments -/

/-- There is no line break among the fragments. -/
def OneLine (fragments : List Fragment) : Prop := ∀ indent, .newline indent ∉ fragments

/-- The columns that the texts among the fragments take up together. -/
def totalWidth : List Fragment → Nat
  | [] => 0
  | .text s :: rest => textWidth s + totalWidth rest
  | .newline _ :: rest => totalWidth rest

/-- The fragments are one line that takes up no more columns than there are. -/
def FitsInto (room : Int) (fragments : List Fragment) : Prop :=
  OneLine fragments ∧ totalWidth fragments ≤ room

theorem oneLine_nil : OneLine [] := fun _ => List.not_mem_nil

theorem oneLine_text (s : String) : OneLine [.text s] := by simp [OneLine]

theorem not_oneLine_newline (indent : Nat) (rest : List Fragment) :
    ¬ OneLine (.newline indent :: rest) := fun h => h indent List.mem_cons_self

theorem oneLine_append {first second : List Fragment} :
    OneLine (first ++ second) ↔ OneLine first ∧ OneLine second := by
  simp [OneLine, forall_and]

theorem oneLine_separator (s : String) : OneLine (separator s) := by
  rw [separator]
  split
  · exact oneLine_nil
  · exact oneLine_text s

theorem totalWidth_append (first second : List Fragment) :
    totalWidth (first ++ second) = totalWidth first + totalWidth second := by
  induction first with
  | nil => simp [totalWidth]
  | cons fragment rest ih => cases fragment <;> simp [totalWidth, ih, Nat.add_assoc]

theorem totalWidth_separator (s : String) : totalWidth (separator s) = textWidth s := by
  rw [separator]
  split
  · next h => simp [String.isEmpty_iff.1 h, textWidth, totalWidth]
  · simp [totalWidth]

/-- On one line, the column moves on by the width of the texts. -/
theorem OneLine.columnAfter_eq {fragments : List Fragment} (h : OneLine fragments) (column : Nat) :
    columnAfter column fragments = column + totalWidth fragments := by
  induction fragments generalizing column with
  | nil => rfl
  | cons fragment rest ih =>
    cases fragment with
    | newline indent => exact absurd h (not_oneLine_newline indent rest)
    | text s =>
      have hrest : OneLine rest := fun indent hmem => h indent (List.mem_cons_of_mem _ hmem)
      rw [columnAfter, ih hrest, totalWidth, Nat.add_assoc]

/-! ## Flat mode -/

/-- The layout of a document in flat mode. -/
def Doc.flatLayout (d : Doc) (indent column : Nat) : List Fragment :=
  match d with
  | .nil => []
  | .text s => [.text s]
  | .seq a b =>
    a.flatLayout indent column ++
      b.flatLayout indent (columnAfter column (a.flatLayout indent column))
  | .indent n d => d.flatLayout (indented indent n) column
  | .line flat _ => separator flat
  | .hardline => [.newline indent]
  | .union a _ => a.flatLayout indent column
  | .flatten d => d.flatLayout indent column
  | .column f => (f column).flatLayout indent column
  | .nesting f => (f indent).flatLayout indent column

/-- In flat mode a document has one layout. -/
theorem layouts_flat (d : Doc) :
    ∀ indent column : Nat, d.layouts indent .flat column = {d.flatLayout indent column} := by
  induction d with
  | nil | text s | hardline | line flat broken => exact fun _ _ => rfl
  | seq a b iha ihb =>
    intro indent column
    ext out
    simp [Doc.layouts, Doc.flatLayout, iha, ihb]
  | indent n d ih => exact fun indent column => ih (indented indent n) column
  | union a b iha _ => exact fun indent column => iha indent column
  | flatten d ih => exact fun indent column => ih indent column
  | column f ih => exact fun indent column => ih column indent column
  | nesting f ih => exact fun indent column => ih indent indent column

theorem mem_layouts_flat {d : Doc} {indent column : Nat} {out : List Fragment} :
    out ∈ d.layouts indent .flat column ↔ out = d.flatLayout indent column := by
  rw [layouts_flat, Set.mem_singleton_iff]

/-- In flat mode the page and what comes after the document make no difference to its layout. -/
theorem toList_layout_flat (width : Nat) (d : Doc) (indent : Nat) (rest : Rest) (column : Nat) :
    (d.layout width indent .flat rest column).toList =
      d.flatLayout indent column ++
        (rest.layout (columnAfter column (d.flatLayout indent column))).toList := by
  obtain ⟨out, hout, hlayout⟩ := exists_mem_layouts width d indent .flat rest column
  rw [hlayout, mem_layouts_flat.1 hout]

/-- There is room for a text and what follows it. -/
theorem fitsText_iff {width : Nat} {rest : Int → Nat → Bool} {room : Int} {column : Nat} :
    fitsText width rest room column = true ↔
      width ≤ room ∧ rest (room - width) (column + width) = true := by
  rw [fitsText, Bool.and_eq_true, decide_eq_true_iff, Int.sub_nonneg]

/-- **A look ahead in flat mode** finds room for a document exactly if its layout is one line that
fits, and there is room for the rest behind it. -/
theorem fits_flat_iff (d : Doc) :
    ∀ (indent : Nat) (rest : Int → Nat → Bool) {room : Int} (column : Nat), 0 ≤ room →
      (d.fits indent .flat rest room column = true ↔
        FitsInto room (d.flatLayout indent column) ∧
          rest (room - totalWidth (d.flatLayout indent column))
            (column + totalWidth (d.flatLayout indent column)) = true) := by
  induction d with
  | nil =>
    intro indent rest room column hroom
    simp [Doc.fits, Doc.flatLayout, FitsInto, oneLine_nil, totalWidth, hroom]
  | text s =>
    intro indent rest room column _
    simp [Doc.fits, Doc.flatLayout, FitsInto, oneLine_text, totalWidth, fitsText_iff]
  | line flat broken =>
    intro indent rest room column _
    simp [Doc.fits, Doc.flatLayout, FitsInto, oneLine_separator, totalWidth_separator, fitsText_iff]
  | hardline =>
    intro indent rest room column _
    simp [Doc.fits, Doc.flatLayout, FitsInto, not_oneLine_newline]
  | seq a b iha ihb =>
    intro indent rest room column hroom
    rw [Doc.fits, iha indent _ column hroom, Doc.flatLayout, FitsInto, FitsInto, oneLine_append,
      totalWidth_append, Int.natCast_add, ← Int.sub_sub, ← Nat.add_assoc]
    constructor
    · rintro ⟨⟨hfirst, hwidth⟩, hfits⟩
      rw [ihb indent rest _ (Int.sub_nonneg.2 hwidth)] at hfits
      obtain ⟨⟨hsecond, hwidth'⟩, hrest⟩ := hfits
      rw [hfirst.columnAfter_eq]
      exact ⟨⟨⟨hfirst, hsecond⟩, by omega⟩, hrest⟩
    · rintro ⟨⟨⟨hfirst, hsecond⟩, hwidth⟩, hrest⟩
      rw [hfirst.columnAfter_eq] at hsecond hwidth hrest
      have hwidth' : totalWidth (a.flatLayout indent column) ≤ room := by omega
      rw [ihb indent rest _ (Int.sub_nonneg.2 hwidth')]
      exact ⟨⟨hfirst, hwidth'⟩, ⟨hsecond, by omega⟩, hrest⟩
  | indent n d ih =>
    exact fun indent rest _ column hroom => ih (indented indent n) rest column hroom
  | union a b iha _ => exact fun indent rest _ column hroom => iha indent rest column hroom
  | flatten d ih => exact fun indent rest _ column hroom => ih indent rest column hroom
  | column f ih => exact fun indent rest _ column hroom => ih column indent rest column hroom
  | nesting f ih => exact fun indent rest _ column hroom => ih indent indent rest column hroom

/-- A group is flat exactly if its flat layout fits what is left of the line, and the rest of the
line behind it does. -/
theorem takesFlat_flatten_iff {width column indent : Nat} {d : Doc} {rest : List Pending} :
    takesFlat width (.flatten d) indent column rest = true ↔
      FitsInto (signed width - signed column) (d.flatLayout indent column) ∧
        fitsAll rest (signed width - signed column - totalWidth (d.flatLayout indent column))
          (column + totalWidth (d.flatLayout indent column)) = true := by
  rw [takesFlat, Bool.and_eq_true, decide_eq_true_iff]
  constructor
  · rintro ⟨hroom, hfits⟩
    exact (fits_flat_iff d indent _ column hroom).1 hfits
  · intro h
    have hroom : 0 ≤ signed width - signed column := Int.le_trans (Int.natCast_nonneg _) h.1.2
    exact ⟨hroom, (fits_flat_iff d indent _ column hroom).2 h⟩

/-! ## A group that is the whole document -/

theorem toList_best_flatten (width start : Nat) (d : Doc) :
    (best width start (.flatten d)).toList = d.flatLayout 0 start :=
  (toList_layout_flat width d 0 .nothing start).trans (List.append_nil _)

theorem best_group_eq_ite (width start : Nat) (d : Doc) :
    best width start d.group =
      if takesFlat width (.flatten d) 0 start [] then best width start (.flatten d)
      else best width start d :=
  layout_union_broken width 0 start (.flatten d) d []

/-- With nothing behind it, a group is flat exactly if its flat layout fits the page. -/
theorem takesFlat_alone_iff {width start : Nat} (hwidth : width < 9223372036854775808)
    (hstart : start < 9223372036854775808) (d : Doc) :
    takesFlat width (.flatten d) 0 start [] = true ↔
      FitsInto (width - start) (best width start (.flatten d)).toList := by
  rw [takesFlat_flatten_iff, toList_best_flatten, signed_of_lt hwidth, signed_of_lt hstart]
  exact and_iff_left rfl

/-- **A document that is one group is laid out in one line exactly when that line fits the page**,
and is otherwise laid out as if it were no group. -/
theorem best_group {width start : Nat} (hwidth : width < 9223372036854775808)
    (hstart : start < 9223372036854775808) (d : Doc) :
    (FitsInto (width - start) (best width start (.flatten d)).toList →
      (best width start d.group).toList = (best width start (.flatten d)).toList) ∧
    (¬ FitsInto (width - start) (best width start (.flatten d)).toList →
      (best width start d.group).toList = (best width start d).toList) ∧
    (FitsInto width (best width 0 (.flatten d)).toList →
      render width d.group = render width (.flatten d)) := by
  refine ⟨fun h => ?_, fun h => ?_, fun h => ?_⟩
  · rw [best_group_eq_ite, if_pos ((takesFlat_alone_iff hwidth hstart d).2 h)]
  · rw [best_group_eq_ite, if_neg (mt (takesFlat_alone_iff hwidth hstart d).1 h)]
  · have halone : FitsInto (width - (0 : Nat)) (best width 0 (.flatten d)).toList := by
      simpa using h
    rw [render, best_group_eq_ite,
      if_pos ((takesFlat_alone_iff hwidth (by decide) d).2 halone), render]

/-- A list that hangs from where it starts, with commas at the beginning of its lines. -/
def hangingList : Doc :=
  Doc.align (.seq (.text "[ one") (.seq (.line ", " ", ") (.seq (.text "two")
    (.seq .space (.text "]")))))

/-- From the fourth column on, a page of sixteen columns has room for the list in one line, and a
page of fifteen has not. -/
theorem best_group_hangingList :
    FitsInto 12 (best 16 4 (.flatten hangingList)).toList ∧
      (best 16 4 hangingList.group).toList =
        [.text "[ one", .text ", ", .text "two", .text " ", .text "]"] ∧
      ¬ FitsInto 11 (best 15 4 (.flatten hangingList)).toList ∧
      (best 15 4 hangingList.group).toList =
        [.text "[ one", .newline 4, .text ", ", .text "two", .newline 4, .text "]"] ∧
      render 12 hangingList.group = "[ one, two ]" := by
  let line : List Fragment := [.text "[ one", .text ", ", .text "two", .text " ", .text "]"]
  have hfits : FitsInto 12 line := ⟨by simp [OneLine, line], by decide⟩
  have hnot : ¬ FitsInto 11 line := fun h => absurd h.2 (by decide)
  obtain ⟨hwide, -, -⟩ := @best_group 16 4 (by decide) (by decide) hangingList
  obtain ⟨-, hnarrow, -⟩ := @best_group 15 4 (by decide) (by decide) hangingList
  obtain ⟨-, -, hrender⟩ := @best_group 12 0 (by decide) (by decide) hangingList
  exact ⟨hfits, hwide hfits, hnot, hnarrow hnot, (hrender hfits).trans (by decide)⟩

end ElmWire.Layout
