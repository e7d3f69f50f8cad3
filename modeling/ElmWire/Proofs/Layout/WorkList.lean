import ElmWire.Layout.Best

/-!
# Layout as a list of work

`Doc.layout` is given what comes after a document as a whole.  The same layout can be had one small
step at a time, by a machine that keeps a list of what is still to be laid out: it takes the first
document off the list and either lays it out, or puts the documents it consists of in its place.

* `Pending` — a document that is still to be laid out, with the indentation and the mode in force.
* `State` — the column that was reached, and the documents that are pending, the next one first.
* `Pending.step` — what becomes of a document when its turn comes, and whether that is an `Event`:
  a fragment is laid out, or a union is resolved.
* `State.after width n s` — the events of the next `n` steps, and the state after them.

**The machine computes the layout**: after finitely many steps nothing is pending
(`finishes`), and then the fragments in the events are those of `best` (`fragments_after`).
What the machine does at a union is visible in its events, so that statements about the choices that
a layout makes are statements about it.
-/

set_option autoImplicit false
namespace ElmWire.Layout

/-! ## The machine -/

/-- A document that is still to be laid out. -/
structure Pending where
  indent : Nat
  mode : Mode
  doc : Doc

/-- Whether the rest of the line fits, if these documents come next. -/
def fitsAll : List Pending → Int → Nat → Bool
  | [] => fun _ _ => true
  | next :: rest => next.doc.fits next.indent next.mode (fitsAll rest)

/-- How far the layout has come. -/
structure State where
  column : Nat
  pending : List Pending

/-- What can be seen of a step. -/
inductive Event where
  /-- A fragment is laid out. -/
  | emit (fragment : Fragment)
  /-- A union that may be broken is reached in a column, and `flat` tells whether its first
  alternative is taken. -/
  | choose (column : Nat) (flat : Bool)
  deriving Repr, DecidableEq

/-- Whether the first alternative of a union is taken. -/
def takesFlat (width : Nat) (flat : Doc) (indent column : Nat) (rest : List Pending) : Bool :=
  0 ≤ signed width - signed column &&
    flat.fits indent .broken (fitsAll rest) (signed width - signed column) column

/-- A text is laid out. -/
def textStep (s : String) (column : Nat) (rest : List Pending) : Option Event × State :=
  (some (.emit (.text s)), ⟨column + textWidth s, rest⟩)

/-- What becomes of a pending document when its turn comes. -/
def Pending.step (width column : Nat) (rest : List Pending) : Pending → Option Event × State
  | ⟨_, _, .nil⟩ => (none, ⟨column, rest⟩)
  | ⟨_, _, .text s⟩ => textStep s column rest
  | ⟨indent, mode, .seq a b⟩ => (none, ⟨column, ⟨indent, mode, a⟩ :: ⟨indent, mode, b⟩ :: rest⟩)
  | ⟨indent, mode, .indent n d⟩ => (none, ⟨column, ⟨indented indent n, mode, d⟩ :: rest⟩)
  | ⟨_, .flat, .line flat _⟩ =>
    if flat.isEmpty then (none, ⟨column, rest⟩) else textStep flat column rest
  | ⟨indent, .broken, .line _ broken⟩ =>
    (some (.emit (.newline indent)), ⟨indent,
      if broken.isEmpty then rest else ⟨indent, .broken, .text broken⟩ :: rest⟩)
  | ⟨indent, _, .hardline⟩ => (some (.emit (.newline indent)), ⟨indent, rest⟩)
  | ⟨indent, .flat, .union a _⟩ => (none, ⟨column, ⟨indent, .flat, a⟩ :: rest⟩)
  | ⟨indent, .broken, .union a b⟩ =>
    if takesFlat width a indent column rest
    then (some (.choose column true), ⟨column, ⟨indent, .broken, a⟩ :: rest⟩)
    else (some (.choose column false), ⟨column, ⟨indent, .broken, b⟩ :: rest⟩)
  | ⟨indent, _, .flatten d⟩ => (none, ⟨column, ⟨indent, .flat, d⟩ :: rest⟩)
  | ⟨indent, mode, .column f⟩ => (none, ⟨column, ⟨indent, mode, f column⟩ :: rest⟩)
  | ⟨indent, mode, .nesting f⟩ => (none, ⟨column, ⟨indent, mode, f indent⟩ :: rest⟩)

/-- The events of the next `n` steps, and the state after them.  Nothing happens any more once
nothing is pending. -/
def State.after (width : Nat) : Nat → State → List Event × State
  | 0, s => ([], s)
  | _ + 1, ⟨column, []⟩ => ([], ⟨column, []⟩)
  | n + 1, ⟨column, next :: rest⟩ =>
    let (event, s) := next.step width column rest
    let (events, t) := s.after width n
    (event.toList ++ events, t)

theorem after_nil (width n column : Nat) :
    State.after width n ⟨column, []⟩ = ([], ⟨column, []⟩) := by
  cases n <;> rfl

theorem after_cons (width n column : Nat) (next : Pending) (rest : List Pending) :
    State.after width (n + 1) ⟨column, next :: rest⟩ =
      ((next.step width column rest).1.toList ++ ((next.step width column rest).2.after width n).1,
        ((next.step width column rest).2.after width n).2) := rfl

/-- What each step keeps is kept by any number of steps. -/
theorem after_induction {width : Nat} {P : State → Prop}
    (hstep : ∀ column next rest, P ⟨column, next :: rest⟩ → P (next.step width column rest).2)
    (n : Nat) {s : State} (h : P s) : P (s.after width n).2 := by
  induction n generalizing s with
  | zero => exact h
  | succ n ih =>
    obtain ⟨column, pending⟩ := s
    cases pending with
    | nil => exact h
    | cons next rest => exact ih (hstep column next rest h)

/-- A whole document is pending. -/
def State.start (column : Nat) (d : Doc) : State := ⟨column, [⟨0, .broken, d⟩]⟩

/-- The fragments that are laid out in a sequence of events. -/
def fragments (events : List Event) : List Fragment :=
  events.filterMap fun
    | .emit fragment => some fragment
    | .choose _ _ => none

/-! ## The machine and the layout -/

/-- What is pending, as the rest of a document. -/
def Rest.ofPending (width : Nat) : List Pending → Rest
  | [] => .nothing
  | next :: rest =>
    ⟨next.doc.fits next.indent next.mode (ofPending width rest).fits,
      next.doc.layout width next.indent next.mode (ofPending width rest)⟩

@[simp] theorem Rest.fits_ofPending (width : Nat) (pending : List Pending) :
    (ofPending width pending).fits = fitsAll pending := by
  induction pending with
  | nil => rfl
  | cons next rest ih => rw [ofPending, fitsAll, ih]

/-- The fragments that are still to come. -/
def State.remaining (width : Nat) (s : State) : List Fragment :=
  ((Rest.ofPending width s.pending).layout s.column).toList

theorem remaining_cons (width column indent : Nat) (mode : Mode) (d : Doc) (rest : List Pending) :
    State.remaining width ⟨column, ⟨indent, mode, d⟩ :: rest⟩ =
      (d.layout width indent mode (.ofPending width rest) column).toList := rfl

theorem layout_union_broken (width indent column : Nat) (a b : Doc) (rest : List Pending) :
    (Doc.union a b).layout width indent .broken (.ofPending width rest) column =
      if takesFlat width a indent column rest
      then a.layout width indent .broken (.ofPending width rest) column
      else b.layout width indent .broken (.ofPending width rest) column := by
  rw [takesFlat, ← Rest.fits_ofPending width rest]
  rfl

/-- **One step**: what is still to come is what the step lays out, and then the rest. -/
theorem remaining_step (width column : Nat) (next : Pending) (rest : List Pending) :
    State.remaining width ⟨column, next :: rest⟩ =
      fragments (next.step width column rest).1.toList ++
        (next.step width column rest).2.remaining width := by
  obtain ⟨indent, mode, d⟩ := next
  cases d with
  | nil => rfl
  | text s => rfl
  | seq a b => rfl
  | indent n d => rfl
  | line flat broken =>
    cases mode with
    | flat =>
      rw [remaining_cons, Doc.layout, Pending.step]
      by_cases hflat : flat.isEmpty
      · rw [if_pos hflat, if_pos hflat]
        rfl
      · rw [if_neg hflat, if_neg hflat]
        rfl
    | broken =>
      rw [remaining_cons, Doc.layout, Pending.step]
      by_cases hbroken : broken.isEmpty
      · rw [if_pos hbroken, if_pos hbroken]
        rfl
      · rw [if_neg hbroken, if_neg hbroken]
        rfl
  | hardline => rfl
  | union a b =>
    cases mode with
    | flat => rfl
    | broken =>
      rw [remaining_cons, layout_union_broken, Pending.step]
      by_cases hflat : takesFlat width a indent column rest
      · rw [if_pos hflat, if_pos hflat]
        rfl
      · rw [if_neg hflat, if_neg hflat]
        rfl
  | flatten d => rfl
  | column f => rfl
  | nesting f => rfl

theorem fragments_append (first second : List Event) :
    fragments (first ++ second) = fragments first ++ fragments second :=
  List.filterMap_append

/-- **Any number of steps**: what is still to come is what the steps lay out, and then the rest. -/
theorem remaining_after (width n : Nat) (s : State) :
    s.remaining width =
      fragments (s.after width n).1 ++ (s.after width n).2.remaining width := by
  fun_induction State.after width n s with
  | case1 s => rfl
  | case2 n column => rfl
  | case3 n column next rest event s hstep events t hafter ih =>
    have hnext := remaining_step width column next rest
    rw [hstep] at hnext
    rw [hafter] at ih
    rw [hnext, ih, fragments_append, List.append_assoc]

/-! ## Every layout comes to an end -/

/-- After finitely many steps nothing is pending. -/
def State.Finishes (width : Nat) (s : State) : Prop :=
  ∃ n, (s.after width n).2.pending = []

theorem finishes_step {width column : Nat} {next : Pending} {rest : List Pending}
    (h : (next.step width column rest).2.Finishes width) :
    State.Finishes width ⟨column, next :: rest⟩ := by
  obtain ⟨n, hpending⟩ := h
  exact ⟨n + 1, hpending⟩

/-- A document can be put in front of what comes to an end.  The induction is on the document, so
the functions in it are no obstacle: whatever they return is a part of the document. -/
theorem finishes_cons {width : Nat} (d : Doc) :
    ∀ {rest : List Pending}, (∀ column, State.Finishes width ⟨column, rest⟩) →
      ∀ (indent : Nat) (mode : Mode) (column : Nat),
        State.Finishes width ⟨column, ⟨indent, mode, d⟩ :: rest⟩ := by
  induction d with
  | nil | text s | hardline => exact fun h _ _ _ => finishes_step (h _)
  | seq a b iha ihb => exact fun h _ _ _ => finishes_step (iha (ihb h _ _) _ _ _)
  | indent n d ih | flatten d ih => exact fun h _ _ _ => finishes_step (ih h _ _ _)
  | column f ih | nesting f ih => exact fun h _ _ _ => finishes_step (ih _ h _ _ _)
  | line flat broken =>
    intro rest h indent mode column
    refine finishes_step ?_
    cases mode with
    | flat =>
      rw [Pending.step]
      split
      · exact h _
      · exact h _
    | broken =>
      rw [Pending.step]
      split
      · exact h _
      · exact finishes_step (h _)
  | union a b iha ihb =>
    intro rest h indent mode column
    refine finishes_step ?_
    cases mode with
    | flat => exact iha h _ _ _
    | broken =>
      rw [Pending.step]
      split
      · exact iha h _ _ _
      · exact ihb h _ _ _

theorem finishes (width : Nat) (s : State) : s.Finishes width := by
  obtain ⟨column, pending⟩ := s
  induction pending generalizing column with
  | nil => exact ⟨0, rfl⟩
  | cons next rest ih => exact finishes_cons next.doc ih next.indent next.mode column

/-- **The machine computes the layout**: once nothing is pending, it has laid out `best`. -/
theorem fragments_after {width start n : Nat} {d : Doc}
    (h : ((State.start start d).after width n).2.pending = []) :
    fragments ((State.start start d).after width n).1 = (best width start d).toList := by
  have hbest : (best width start d).toList = (State.start start d).remaining width := rfl
  have hnothing : ((State.start start d).after width n).2.remaining width = [] := by
    rw [State.remaining, h]
    rfl
  rw [hbest, remaining_after width n, hnothing, List.append_nil]

theorem exists_fragments_after (width start : Nat) (d : Doc) :
    ∃ n, ((State.start start d).after width n).2.pending = [] ∧
      fragments ((State.start start d).after width n).1 = (best width start d).toList := by
  obtain ⟨n, hn⟩ := finishes width (.start start d)
  exact ⟨n, hn, fragments_after hn⟩

end ElmWire.Layout
