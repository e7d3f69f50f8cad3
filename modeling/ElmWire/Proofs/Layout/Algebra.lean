import Mathlib.Data.Set.Basic
import ElmWire.Proofs.Layout.WorkList

/-!
# The layouts that a document has

A document stands for a set of layouts, and a page is only needed to choose one of them.
`Doc.layouts` is that set: `d.layouts indent mode column` are the ways to lay `d` out from a column
on, with an indentation and a mode in force.  It is read off the document, part by part, and knows
nothing of pages: a union that may be broken has the layouts of both its alternatives.

**The layout on a page is one of the layouts of the document** (`toList_best_mem_layouts`), so
nothing is lost, added or moved.  And the page decides about unions and about nothing else: two
pages on which the unions are resolved in the same way get the same layout (`after_eq_of_choices`).
-/

set_option autoImplicit false
namespace ElmWire.Layout

/-! ## Layouts without a page -/

/-- The column that is reached with some fragments. -/
def columnAfter : Nat → List Fragment → Nat
  | column, [] => column
  | column, .text s :: rest => columnAfter (column + textWidth s) rest
  | _, .newline indent :: rest => columnAfter indent rest

/-- The text that a line break leaves behind, if there is one. -/
def separator (s : String) : List Fragment := if s.isEmpty then [] else [.text s]

/-- The layouts of a document from a column on. -/
def Doc.layouts (d : Doc) (indent : Nat) (mode : Mode) (column : Nat) : Set (List Fragment) :=
  match d with
  | .nil => {[]}
  | .text s => {[.text s]}
  | .seq a b =>
    {out | ∃ first ∈ a.layouts indent mode column,
      ∃ second ∈ b.layouts indent mode (columnAfter column first), out = first ++ second}
  | .indent n d => d.layouts (indented indent n) mode column
  | .line flat broken =>
    match mode with
    | .flat => {separator flat}
    | .broken => {.newline indent :: separator broken}
  | .hardline => {[.newline indent]}
  | .union a b =>
    match mode with
    | .flat => a.layouts indent mode column
    | .broken => a.layouts indent mode column ∪ b.layouts indent mode column
  | .flatten d => d.layouts indent .flat column
  | .column f => (f column).layouts indent mode column
  | .nesting f => (f indent).layouts indent mode column

theorem columnAfter_append (column : Nat) (first second : List Fragment) :
    columnAfter column (first ++ second) = columnAfter (columnAfter column first) second := by
  induction first generalizing column with
  | nil => rfl
  | cons fragment rest ih => cases fragment <;> exact ih _

/-- Laying a document out on a page is to choose one of its layouts, and to go on from the column
that is reached with it.  Of what comes after the document, the choice depends on whether that fits,
and not on how it is laid out. -/
theorem exists_mem_layouts_of_fits (width : Nat) (d : Doc) :
    ∀ (indent : Nat) (mode : Mode) (fits : Int → Nat → Bool) (column : Nat),
      ∃ out ∈ d.layouts indent mode column, ∀ tail : Nat → Fragments,
        (d.layout width indent mode ⟨fits, tail⟩ column).toList =
          out ++ (tail (columnAfter column out)).toList := by
  induction d with
  | nil => exact fun indent mode fits column => ⟨[], rfl, fun _ => rfl⟩
  | text s => exact fun indent mode fits column => ⟨[.text s], rfl, fun _ => rfl⟩
  | hardline => exact fun indent mode fits column => ⟨[.newline indent], rfl, fun _ => rfl⟩
  | seq a b iha ihb =>
    intro indent mode fits column
    obtain ⟨first, hfirst, ha⟩ := iha indent mode (b.fits indent mode fits) column
    obtain ⟨second, hsecond, hb⟩ := ihb indent mode fits (columnAfter column first)
    refine ⟨first ++ second, ⟨first, hfirst, second, hsecond, rfl⟩, fun tail => ?_⟩
    rw [Doc.layout, ha, hb, columnAfter_append, List.append_assoc]
  | indent n d ih => exact fun indent mode fits column => ih (indented indent n) mode fits column
  | flatten d ih => exact fun indent mode fits column => ih indent .flat fits column
  | column f ih => exact fun indent mode fits column => ih column indent mode fits column
  | nesting f ih => exact fun indent mode fits column => ih indent indent mode fits column
  | line flat broken =>
    intro indent mode fits column
    cases mode with
    | flat =>
      refine ⟨separator flat, rfl, fun tail => ?_⟩
      rw [Doc.layout, separator]
      split
      · rfl
      · rfl
    | broken =>
      refine ⟨.newline indent :: separator broken, rfl, fun tail => ?_⟩
      rw [Doc.layout, separator, Fragments.toList]
      split
      · rfl
      · rfl
  | union a b iha ihb =>
    intro indent mode fits column
    cases mode with
    | flat => exact iha indent .flat fits column
    | broken =>
      by_cases hfits : (0 ≤ signed width - signed column &&
          a.fits indent .broken fits (signed width - signed column) column) = true
      · obtain ⟨out, hout, ha⟩ := iha indent .broken fits column
        refine ⟨out, .inl hout, fun tail => ?_⟩
        rw [Doc.layout, if_pos hfits, ha]
      · obtain ⟨out, hout, hb⟩ := ihb indent .broken fits column
        refine ⟨out, .inr hout, fun tail => ?_⟩
        rw [Doc.layout, if_neg hfits, hb]

theorem exists_mem_layouts (width : Nat) (d : Doc) (indent : Nat) (mode : Mode) (rest : Rest)
    (column : Nat) :
    ∃ out ∈ d.layouts indent mode column,
      (d.layout width indent mode rest column).toList =
        out ++ (rest.layout (columnAfter column out)).toList := by
  obtain ⟨out, hout, hlayout⟩ := exists_mem_layouts_of_fits width d indent mode rest.fits column
  exact ⟨out, hout, hlayout rest.layout⟩

theorem toList_best_mem_layouts (width start : Nat) (d : Doc) :
    (best width start d).toList ∈ d.layouts 0 .broken start := by
  obtain ⟨out, hout, hlayout⟩ := exists_mem_layouts width d 0 .broken .nothing start
  rw [best, hlayout]
  rwa [Rest.nothing, Fragments.toList, List.append_nil]

/-! ## What the page decides -/

/-- How the unions were resolved in a sequence of events. -/
def choices (events : List Event) : List Bool :=
  events.filterMap fun
    | .emit _ => none
    | .choose _ flat => some flat

theorem choices_append (first second : List Event) :
    choices (first ++ second) = choices first ++ choices second :=
  List.filterMap_append

/-- On two pages, a step is the same or resolves a union differently. -/
theorem step_eq_or_choose (width width' column : Nat) (next : Pending) (rest : List Pending) :
    next.step width column rest = next.step width' column rest ∨
      ∃ flat, (next.step width column rest).1 = some (.choose column flat) ∧
        (next.step width' column rest).1 = some (.choose column !flat) := by
  obtain ⟨indent, mode, d⟩ := next
  cases d with
  | union a b =>
    cases mode with
    | flat => exact .inl rfl
    | broken =>
      rw [Pending.step, Pending.step]
      cases takesFlat width a indent column rest <;>
        cases takesFlat width' a indent column rest <;> simp
  | line flat broken => cases mode <;> exact .inl rfl
  | _ => exact .inl rfl

/-- **Nothing but the resolution of unions depends on the page.** -/
theorem after_eq_of_choices {width width' : Nat} {n n' : Nat} {s : State}
    (h : (s.after width n).2.pending = []) (h' : (s.after width' n').2.pending = [])
    (hchoices : choices (s.after width n).1 = choices (s.after width' n').1) :
    (s.after width n).1 = (s.after width' n').1 := by
  -- As long as the choices agree the two runs are in the same state, so one induction follows both.
  induction n generalizing n' s with
  | zero =>
    obtain ⟨column, pending⟩ := s
    obtain rfl : pending = [] := h
    rw [after_nil, after_nil]
  | succ n ih =>
    obtain ⟨column, pending⟩ := s
    cases pending with
    | nil => rw [after_nil, after_nil]
    | cons next rest =>
      cases n' with
      | zero => exact absurd h' (List.cons_ne_nil next rest)
      | succ n' =>
        rw [after_cons, after_cons, choices_append, choices_append] at hchoices
        rw [after_cons] at h h' ⊢
        rw [after_cons]
        obtain hstep | ⟨flat, hflat, hflat'⟩ := step_eq_or_choose width width' column next rest
        · rw [← hstep] at h' hchoices ⊢
          rw [ih h h' (List.append_cancel_left hchoices)]
        · rw [hflat, hflat'] at hchoices
          cases flat <;> simp [choices] at hchoices

end ElmWire.Layout
