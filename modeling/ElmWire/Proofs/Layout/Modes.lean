import ElmWire.Proofs.Layout.LookAhead
import Mathlib.Order.Lattice.Nat

/-!
# The modes of what is pending

The fragments of a layout are computed one by one, as they are asked for.  The machine answers such
a request by taking steps until one of them lays out a fragment.

* `State.next`, `State.calls` — one request, and any number of them.  **The requests get the
  fragments of `best`** (`calls_fragments`), and every state between them is one that the machine
  passes through (`exists_calls_eq_after`).
* `BrokenBelowFlat` — what is pending, seen as a stack: documents in broken mode at the bottom, and
  documents in flat mode on top of them.
* `pending_modes` — **it is like that in every state**, since only flattening changes the mode, and
  only for the document on top.  So when a union is resolved in broken mode, the look ahead goes
  through documents in broken mode only.
-/

set_option autoImplicit false
namespace ElmWire.Layout

/-! ## Asking for fragments -/

/-- The number of steps until nothing is pending. -/
noncomputable def State.stepsLeft (width : Nat) (s : State) : Nat :=
  sInf {n | (s.after width n).2.pending = []}

theorem pending_after_stepsLeft (width : Nat) (s : State) :
    (s.after width (s.stepsLeft width)).2.pending = [] := Nat.sInf_mem (finishes width s)

theorem stepsLeft_step (width column : Nat) (next : Pending) (rest : List Pending) :
    (next.step width column rest).2.stepsLeft width <
      State.stepsLeft width ⟨column, next :: rest⟩ := by
  have hend := pending_after_stepsLeft width ⟨column, next :: rest⟩
  cases hleft : State.stepsLeft width ⟨column, next :: rest⟩ with
  | zero =>
    rw [hleft] at hend
    cases hend
  | succ n =>
    rw [hleft] at hend
    exact Nat.lt_succ_of_le (Nat.sInf_le hend)

/-- Takes steps until a fragment is laid out or nothing is pending. -/
def State.next (width : Nat) (s : State) : Option Fragment × State :=
  match s with
  | ⟨column, []⟩ => (none, ⟨column, []⟩)
  | ⟨column, first :: rest⟩ =>
    match (first.step width column rest).1 with
    | some (.emit fragment) => (some fragment, (first.step width column rest).2)
    | _ => (first.step width column rest).2.next width
termination_by s.stepsLeft width
decreasing_by exact stepsLeft_step width column first rest

/-- The answers to the next `k` requests for a fragment, and the state after them. -/
def State.calls (width : Nat) : Nat → State → List Fragment × State
  | 0, s => ([], s)
  | k + 1, s =>
    let (fragment, t) := s.next width
    let (later, u) := t.calls width k
    (fragment.toList ++ later, u)

/-- A step that lays out no fragment. -/
theorem fragments_toList_of_ne {event : Option Event}
    (h : ∀ fragment, event = some (.emit fragment) → False) : fragments event.toList = [] := by
  rcases event with _ | fragment | ⟨column, flat⟩
  · rfl
  · exact (h fragment rfl).elim
  · rfl

/-- One request is some number of steps, and its answer what these lay out. -/
theorem exists_next_eq_after (width : Nat) (s : State) :
    ∃ n, (s.next width).2 = (s.after width n).2 ∧
      (s.next width).1.toList = fragments (s.after width n).1 := by
  fun_induction State.next width s with
  | case1 column => exact ⟨0, rfl, rfl⟩
  | case2 column first rest fragment hevent =>
    refine ⟨1, rfl, ?_⟩
    rw [after_cons, hevent]
    rfl
  | case3 column first rest hevent ih =>
    obtain ⟨n, hstate, hfragments⟩ := ih
    refine ⟨n + 1, hstate, ?_⟩
    rw [after_cons, fragments_append, fragments_toList_of_ne hevent, List.nil_append]
    exact hfragments

/-- Without an answer there is nothing left. -/
theorem pending_next_of_eq_none {width : Nat} {s : State} (h : (s.next width).1 = none) :
    (s.next width).2.pending = [] := by
  fun_induction State.next width s with
  | case1 column => rfl
  | case2 column first rest fragment hevent => cases h
  | case3 column first rest hevent ih => exact ih h

theorem after_add (width m n : Nat) (s : State) :
    s.after width (m + n) =
      ((s.after width m).1 ++ ((s.after width m).2.after width n).1,
        ((s.after width m).2.after width n).2) := by
  induction m generalizing s with
  | zero => rw [Nat.zero_add]; rfl
  | succ m ih =>
    obtain ⟨column, pending⟩ := s
    cases pending with
    | nil => simp [after_nil]
    | cons next rest => rw [Nat.add_right_comm, after_cons, after_cons, ih, List.append_assoc]

/-- **The states between requests** are states that the machine passes through. -/
theorem exists_calls_eq_after (width k : Nat) (s : State) :
    ∃ n, (s.calls width k).2 = (s.after width n).2 := by
  induction k generalizing s with
  | zero => exact ⟨0, rfl⟩
  | succ k ih =>
    obtain ⟨m, hnext, -⟩ := exists_next_eq_after width s
    obtain ⟨n, hcalls⟩ := ih (s.next width).2
    refine ⟨m + n, ?_⟩
    rw [after_add, ← hnext]
    exact hcalls

theorem remaining_next (width : Nat) (s : State) :
    s.remaining width = (s.next width).1.toList ++ (s.next width).2.remaining width := by
  obtain ⟨n, hstate, hfragments⟩ := exists_next_eq_after width s
  rw [hstate, hfragments, ← remaining_after]

/-- **Requests get the fragments that are still to come**, one by one. -/
theorem calls_fragments (width k : Nat) (s : State) :
    (s.calls width k).1 = (s.remaining width).take k := by
  induction k generalizing s with
  | zero => rfl
  | succ k ih =>
    have hcalls : (s.calls width (k + 1)).1 =
        (s.next width).1.toList ++ ((s.next width).2.calls width k).1 := rfl
    rw [hcalls, ih, remaining_next width s]
    cases hnext : (s.next width).1 with
    | some fragment => rfl
    | none =>
      -- Further requests get no answer either.
      have hnothing : (s.next width).2.remaining width = [] := by
        rw [State.remaining, pending_next_of_eq_none hnext]
        rfl
      rw [hnothing]
      simp

/-! ## Broken mode below flat mode -/

/-- From the bottom to the top, documents in broken mode and then documents in flat mode. -/
def BrokenBelowFlat (pending : List Pending) : Prop :=
  ∃ broken flat, pending.reverse = broken ++ flat ∧ (∀ p ∈ broken, p.mode = .broken) ∧
    ∀ p ∈ flat, p.mode = .flat

theorem BrokenBehind.brokenBelowFlat {pending : List Pending} (h : BrokenBehind pending) :
    BrokenBelowFlat pending := by
  induction pending with
  | nil => exact ⟨[], [], rfl, by simp, by simp⟩
  | cons top rest ih =>
    obtain ⟨hbehind, hrest⟩ := brokenBehind_cons.1 h
    cases hmode : top.mode with
    | broken =>
      -- Nothing below a document in broken mode is flat.
      refine ⟨(top :: rest).reverse, [], (List.append_nil _).symm, fun p hmem => ?_, by simp⟩
      rcases List.mem_cons.1 (List.mem_reverse.1 hmem) with rfl | hmem
      · exact hmode
      · exact hbehind hmode p hmem
    | flat =>
      obtain ⟨broken, flat, hreverse, hbroken, hflat⟩ := ih hrest
      refine ⟨broken, flat ++ [top], ?_, hbroken, ?_⟩
      · rw [List.reverse_cons, hreverse, List.append_assoc]
      · exact List.forall_mem_append.2 ⟨hflat, List.forall_mem_singleton.2 hmode⟩

/-- A union in broken mode is resolved by the look ahead. -/
theorem step_union_broken (width column indent : Nat) (a b : Doc) (rest : List Pending) :
    (Pending.step width column rest ⟨indent, .broken, .union a b⟩).1 =
      some (.choose column (takesFlat width a indent column rest)) := by
  rw [Pending.step]
  split
  · next h => rw [h]
  · next h => rw [Bool.eq_false_iff.2 h]

/-- **Pending documents do not change their mode behind a break.**  However often a fragment is
asked for, and after each step that is taken for it, the documents in broken mode are below those in
flat mode.  So when a union is resolved in broken mode, everything that the look ahead goes through
is in broken mode. -/
theorem pending_modes (width start : Nat) (d : Doc) :
    (∀ k, ((State.start start d).calls width k).1 = (best width start d).take k ∧
      ∃ n, ((State.start start d).calls width k).2 = ((State.start start d).after width n).2) ∧
    ∀ n, BrokenBelowFlat ((State.start start d).after width n).2.pending ∧
      ∀ column indent a b rest, ((State.start start d).after width n).2 =
          ⟨column, ⟨indent, .broken, .union a b⟩ :: rest⟩ →
        (Pending.step width column rest ⟨indent, .broken, .union a b⟩).1 =
          some (.choose column (takesFlat width a indent column rest)) ∧
        ∀ p ∈ rest, p.mode = .broken := by
  refine ⟨fun k => ⟨?_, exists_calls_eq_after width k _⟩, fun n => ⟨?_, ?_⟩⟩
  · rw [calls_fragments, Fragments.take_eq]
    rfl
  · exact (brokenBehind_after width start n d).brokenBelowFlat
  · intro column indent a b rest hreached
    have hbehind := brokenBehind_after width start n d
    rw [hreached] at hbehind
    exact ⟨step_union_broken width column indent a b rest, (brokenBehind_cons.1 hbehind).1 rfl⟩

/-- A union with a document behind it is resolved, and then a flat line is on top of that
document. -/
theorem pending_modes_union :
    let line : Doc := .flatten (.seq (.text "a") .space)
    let behind : Doc := .union (.text "c") .hardline
    let doc : Doc := .seq (.union line (.text "b")) behind
    ((State.start 0 doc).after 80 1).2 =
        ⟨0, [⟨0, .broken, .union line (.text "b")⟩, ⟨0, .broken, behind⟩]⟩ ∧
      ((State.start 0 doc).calls 80 2).1 = [.text "a", .text " "] ∧
      ((State.start 0 doc).after 80 4).2.pending.map Pending.mode = [.flat, .flat, .broken] ∧
      BrokenBelowFlat ((State.start 0 doc).after 80 4).2.pending ∧
      ∀ p ∈ [(⟨0, .broken, behind⟩ : Pending)], p.mode = .broken := by
  intro line behind doc
  obtain ⟨hcalls, hmodes⟩ := pending_modes 80 0 doc
  exact ⟨rfl, (hcalls 2).1, rfl, (hmodes 4).1, ((hmodes 1).2 0 0 _ _ _ rfl).2⟩

end ElmWire.Layout
