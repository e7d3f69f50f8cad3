import ElmWire.Proofs.Layout.WorkList

/-!
# Lines and the width of the page

The first alternative of a union is only taken when `Doc.fits` says that the rest of the line has
room for it.  That is a forecast: it supposes that the unions further on are broken, while the
layout that follows is free to lay some of them out in one line.  This module shows that the
forecast is kept anyway.

* `Line` — a line of a layout: the column that is reached in it, and the choices made on it.
* `lines start events` — the lines that a sequence of events consists of.
* `Fitting width column pending` — the forecast for what is pending in a column is good.

The invariant is `OnTrack`: a line on which a first alternative was taken has a good forecast.  It
does not matter how often that happens.  Each further union on the line either is broken, as was
supposed, or is taken flat because there is a good forecast for that as well, which replaces the old
one.  So **a line on which a first alternative was taken ends on the page** (`column_le_of_flat`),
and a line that is too long is one where every union was broken.
-/

set_option autoImplicit false
namespace ElmWire.Layout

/-! ## Lines -/

/-- A line of a layout. -/
structure Line where
  /-- The column that is reached. -/
  column : Nat
  /-- The unions that were resolved on the line: the column of each, and whether its first
  alternative was taken. -/
  choices : List (Nat × Bool)
  deriving Repr, DecidableEq

/-- The current line after an event. -/
def Line.after (line : Line) : Event → Line
  | .emit (.text s) => { line with column := line.column + textWidth s }
  | .emit (.newline indent) => ⟨indent, []⟩
  | .choose column flat => { line with choices := line.choices ++ [(column, flat)] }

/-- The lines of a layout, of which the first has come as far as `line`. -/
def linesFrom (line : Line) : List Event → List Line
  | [] => [line]
  | .emit (.newline indent) :: events =>
    line :: linesFrom (line.after (.emit (.newline indent))) events
  | event :: events => linesFrom (line.after event) events

/-- The lines of a layout that starts in a column. -/
def lines (start : Nat) (events : List Event) : List Line := linesFrom ⟨start, []⟩ events

theorem mem_linesFrom_cons {l line : Line} {event : Event} {events : List Event}
    (h : l ∈ linesFrom line (event :: events)) :
    l = line ∨ l ∈ linesFrom (line.after event) events := by
  match event, h with
  | .emit (.newline indent), h => exact List.mem_cons.1 h
  | .emit (.text s), h => exact .inr h
  | .choose column flat, h => exact .inr h

/-- A first alternative was taken on the line, in a column that is not beyond all widths. -/
def Line.Flat (line : Line) : Prop :=
  ∃ column < 9223372036854775808, (column, true) ∈ line.choices

/-! ## The forecast -/

/-- What is pending has room on what is left of the line. -/
def Fitting (width column : Nat) (pending : List Pending) : Prop :=
  ∃ room : Int, 0 ≤ room ∧ room ≤ width - column ∧ fitsAll pending room column = true

theorem Fitting.column_le {width column : Nat} {pending : List Pending}
    (h : Fitting width column pending) : column ≤ width := by
  obtain ⟨room, hpos, hle, -⟩ := h
  omega

/-- There is room for a text that is part of the forecast, and the forecast goes on after it. -/
theorem Fitting.text {width column : Nat} {pending rest : List Pending} {s : String}
    (h : Fitting width column pending)
    (htext : fitsAll pending = fitsText (textWidth s) (fitsAll rest)) :
    Fitting width (column + textWidth s) rest := by
  obtain ⟨room, -, hle, hfits⟩ := h
  rw [htext, fitsText, Bool.and_eq_true, decide_eq_true_iff] at hfits
  exact ⟨room - textWidth s, hfits.1, by omega, hfits.2⟩

/-- The room that a union is given is on the page.  Only a column that is itself beyond the signed
numbers could make it seem larger, on a page that ends before it. -/
theorem signed_sub_le {width column : Nat}
    (h : column < 9223372036854775808 ∨ column ≤ width) :
    signed width - signed column ≤ width - column := by
  unfold signed
  split <;> split <;> omega

/-- The first alternative of a union is only taken with a good forecast. -/
theorem fitting_of_takesFlat {width indent column : Nat} {a : Doc} {rest : List Pending}
    (h : takesFlat width a indent column rest = true)
    (hcolumn : column < 9223372036854775808 ∨ column ≤ width) :
    Fitting width column (⟨indent, .broken, a⟩ :: rest) := by
  rw [takesFlat, Bool.and_eq_true, decide_eq_true_iff] at h
  exact ⟨signed width - signed column, h.1, signed_sub_le hcolumn, h.2⟩

/-! ## The invariant -/

/-- The current line has come as far as the layout has, and has a good forecast if a first
alternative was taken on it. -/
structure OnTrack (width : Nat) (line : Line) (s : State) : Prop where
  column_eq : line.column = s.column
  fitting : line.Flat → Fitting width s.column s.pending

theorem Line.flat_after_choose {line : Line} {column : Nat} {flat : Bool}
    (h : (line.after (.choose column flat)).Flat) :
    line.Flat ∨ (flat = true ∧ column < 9223372036854775808) := by
  obtain ⟨c, hc, hmem⟩ := h
  obtain hmem | hmem := List.mem_append.1 hmem
  · exact .inl ⟨c, hc, hmem⟩
  · obtain ⟨rfl, rfl⟩ := Prod.mk.inj (List.mem_singleton.1 hmem)
    exact .inr ⟨rfl, hc⟩

/-- A line without any choice is on track. -/
theorem onTrack_fresh (width column : Nat) (pending : List Pending) :
    OnTrack width ⟨column, []⟩ ⟨column, pending⟩ where
  column_eq := rfl
  fitting := fun ⟨_, _, hmem⟩ => absurd hmem List.not_mem_nil

theorem OnTrack.text {width column : Nat} {line : Line} {pending rest : List Pending} {s : String}
    (h : OnTrack width line ⟨column, pending⟩)
    (htext : fitsAll pending = fitsText (textWidth s) (fitsAll rest)) :
    OnTrack width (line.after (.emit (.text s))) ⟨column + textWidth s, rest⟩ where
  column_eq := congrArg (· + textWidth s) h.column_eq
  fitting := fun hflat => (h.fitting hflat).text htext

/-- A union that is broken is what the forecast supposed. -/
theorem OnTrack.broken {width indent column : Nat} {line : Line} {a b : Doc} {rest : List Pending}
    (h : OnTrack width line ⟨column, ⟨indent, .broken, .union a b⟩ :: rest⟩) :
    OnTrack width (line.after (.choose column false))
      ⟨column, ⟨indent, .broken, b⟩ :: rest⟩ where
  column_eq := h.column_eq
  fitting := by
    intro hflat
    obtain hflat | ⟨hfalse, -⟩ := Line.flat_after_choose hflat
    · exact h.fitting hflat
    · exact absurd hfalse Bool.false_ne_true

/-- A union that is not broken comes with a forecast of its own, and the old one is only needed to
know that the column is on the page. -/
theorem OnTrack.flat {width indent column : Nat} {line : Line} {pending rest : List Pending}
    {a : Doc} (h : OnTrack width line ⟨column, pending⟩)
    (htakes : takesFlat width a indent column rest = true) :
    OnTrack width (line.after (.choose column true))
      ⟨column, ⟨indent, .broken, a⟩ :: rest⟩ where
  column_eq := h.column_eq
  fitting := by
    intro hflat
    refine fitting_of_takesFlat htakes ?_
    obtain hflat | ⟨-, hcolumn⟩ := Line.flat_after_choose hflat
    · exact .inr (h.fitting hflat).column_le
    · exact .inl hcolumn

/-- The current line after a step. -/
def Line.afterStep (line : Line) : Option Event → Line
  | none => line
  | some event => line.after event

/-- **One step** keeps the line on track. -/
theorem OnTrack.step {width column : Nat} {line : Line} {next : Pending} {rest : List Pending}
    (h : OnTrack width line ⟨column, next :: rest⟩) :
    OnTrack width (line.afterStep (next.step width column rest).1)
      (next.step width column rest).2 := by
  obtain ⟨indent, mode, d⟩ := next
  cases d with
  | nil | seq a b | indent n d | flatten d | column f | nesting f => exact ⟨h.column_eq, h.fitting⟩
  | text s => exact h.text rfl
  | hardline => exact onTrack_fresh width indent rest
  | line flat broken =>
    cases mode with
    | broken => exact onTrack_fresh width indent _
    | flat =>
      rw [Pending.step]
      split
      next hempty =>
        -- An empty text is not laid out, but the forecast has it.
        refine ⟨h.column_eq, fun hflat => ?_⟩
        have hwidth : textWidth flat = 0 := by
          rw [textWidth, String.isEmpty_iff.1 hempty]
          rfl
        have hfitting : Fitting width (column + textWidth flat) rest := (h.fitting hflat).text rfl
        rwa [hwidth] at hfitting
      next => exact h.text rfl
  | union a b =>
    cases mode with
    | flat => exact ⟨h.column_eq, h.fitting⟩
    | broken =>
      rw [Pending.step]
      split
      next htakes => exact h.flat htakes
      next => exact h.broken

theorem OnTrack.column_le {width : Nat} {line : Line} {s : State} (h : OnTrack width line s)
    (hflat : line.Flat) : line.column ≤ width :=
  h.column_eq ▸ (h.fitting hflat).column_le

/-- **Any number of steps** lay out lines that end on the page, if a first alternative was taken on
them. -/
theorem OnTrack.run {width n : Nat} {line : Line} {s : State} (h : OnTrack width line s) :
    ∀ l ∈ linesFrom line (s.after width n).1, l.Flat → l.column ≤ width := by
  induction n generalizing line s with
  | zero =>
    intro l hl
    obtain rfl := List.mem_singleton.1 hl
    exact h.column_le
  | succ n ih =>
    obtain ⟨column, pending⟩ := s
    cases pending with
    | nil =>
      intro l hl
      obtain rfl := List.mem_singleton.1 hl
      exact h.column_le
    | cons next rest =>
      intro l hl
      rw [after_cons] at hl
      have hstep := h.step
      cases hevent : (next.step width column rest).1 with
      | none =>
        rw [hevent] at hl hstep
        exact ih hstep l hl
      | some event =>
        rw [hevent] at hl hstep
        obtain rfl | hl := mem_linesFrom_cons hl
        · exact h.column_le
        · exact ih hstep l hl

/-- **A line on which the first alternative of a union was taken ends on the page.**  The events are
those of the layout, and what is said of its lines holds at any time before it is complete, too. -/
theorem column_le_of_flat (width start : Nat) (d : Doc) :
    (∃ n, ((State.start start d).after width n).2.pending = [] ∧
      fragments ((State.start start d).after width n).1 = (best width start d).toList) ∧
    ∀ n, ∀ line ∈ lines start ((State.start start d).after width n).1,
      ∀ column < 9223372036854775808, (column, true) ∈ line.choices → line.column ≤ width := by
  refine ⟨exists_fragments_after width start d, ?_⟩
  intro n line hline column hcolumn hmem
  have hstart : OnTrack width ⟨start, []⟩ (State.start start d) := onTrack_fresh width start _
  exact hstart.run line hline ⟨column, hcolumn, hmem⟩

/-- Two calls in a line, and a word that no page of eight columns has room for. -/
def calls : Doc :=
  .seq (.group (.seq (.text "f") (.seq .space (.text "x"))))
    (.seq (.group (.seq .space (.text "g")))
      (.seq (.group (.seq .space (.text "y y y"))) (.seq .hardline (.text "overflowing"))))

/-- Two choices on the first line are flat, and it is the third that ends the line in time. -/
theorem column_le_of_flat_calls :
    lines 0 ((State.start 0 calls).after 8 40).1 =
        [⟨5, [(0, true), (3, true), (5, false)]⟩, ⟨5, []⟩, ⟨11, []⟩] ∧
      5 ≤ 8 := by
  have hlines : lines 0 ((State.start 0 calls).after 8 40).1 =
      [⟨5, [(0, true), (3, true), (5, false)]⟩, ⟨5, []⟩, ⟨11, []⟩] := rfl
  refine ⟨hlines, (column_le_of_flat 8 0 calls).2 40 ⟨5, [(0, true), (3, true), (5, false)]⟩ ?_ 3
    (by decide) (by decide)⟩
  rw [hlines]
  exact List.mem_cons_self

end ElmWire.Layout
