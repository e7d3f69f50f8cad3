import Mathlib.Data.List.Infix
import ElmWire.Proofs.Layout.Algebra

/-!
# How far lines are indented

In a language with an offside rule, what belongs to a construction must not start further left than
the construction itself.  A document keeps to that in each of its layouts if it never takes back
indentation but to hang from a column that the layout has reached.

* `InRange column out` — all columns that are reached are signed numbers of 64 bits.  Beyond them,
  documents that hang from where they start do not know where that is.
* `Doc.Hangs k d` — every line break in `d` is indented by `k` more columns than `d` itself, or
  hangs from a column that `d` has reached.  The margin `floor` that is kept may therefore be up to
  `k` columns right of the indentation in force, if the document does not start left of it.
* `Doc.Holds d part` — every layout of `d` has a layout of `part` in it (`Within`).
* `Doc.Starts k d part` — every layout of `d` has one of `part` at the start of a line, `k` columns
  right of the indentation in force.

Documents are put together in the same ways as for `Doc.Uniform`, and there is a lemma for each.
-/

set_option autoImplicit false
namespace ElmWire.Layout

/-! ## Layouts of documents that are put together -/

namespace Doc

theorem layouts_append (a b : Doc) (indent : Nat) (mode : Mode) (column : Nat) :
    (a ++ b).layouts indent mode column = (a.seq b).layouts indent mode column := by
  show (Doc.append a b).layouts indent mode column = _
  rw [Doc.append]
  split
  · next hnil =>
    obtain rfl : a = .nil := by cases a <;> simp_all [isNil]
    ext out
    constructor
    · exact fun hout => ⟨[], rfl, out, hout, rfl⟩
    · rintro ⟨first, rfl, second, hsecond, rfl⟩
      exact hsecond
  · split
    · next hnil =>
      obtain rfl : b = .nil := by cases b <;> simp_all [isNil]
      ext out
      constructor
      · exact fun hout => ⟨out, hout, [], rfl, by simp⟩
      · rintro ⟨first, hfirst, second, rfl, rfl⟩
        rwa [List.append_nil]
    · rfl

theorem layouts_append_append (a b d : Doc) (indent : Nat) (mode : Mode) (column : Nat) :
    (a ++ (b ++ d)).layouts indent mode column = (a ++ b ++ d).layouts indent mode column := by
  ext out
  rw [layouts_append, layouts_append]
  constructor
  · rintro ⟨first, hfirst, second, hsecond, rfl⟩
    rw [layouts_append] at hsecond
    obtain ⟨second, hsecond, third, hthird, rfl⟩ := hsecond
    refine ⟨first ++ second, ?_, third, ?_, by simp⟩
    · rw [layouts_append]
      exact ⟨first, hfirst, second, hsecond, rfl⟩
    · rwa [columnAfter_append]
  · rintro ⟨both, hboth, third, hthird, rfl⟩
    rw [layouts_append] at hboth
    obtain ⟨first, hfirst, second, hsecond, rfl⟩ := hboth
    refine ⟨first, hfirst, second ++ third, ?_, by simp⟩
    rw [layouts_append]
    rw [columnAfter_append] at hthird
    exact ⟨second, hsecond, third, hthird, rfl⟩

theorem layouts_nest (n : Int) (d : Doc) (indent : Nat) (mode : Mode) (column : Nat) :
    (d.nest n).layouts indent mode column = d.layouts (indented indent n) mode column := by
  rw [Doc.nest]
  split
  · next hzero =>
    subst hzero
    simp [indented]
  · rfl

theorem exists_mode_of_mem_layouts_group {d : Doc} {indent column : Nat} {mode : Mode}
    {out : List Fragment} (h : out ∈ d.group.layouts indent mode column) :
    ∃ mode', out ∈ d.layouts indent mode' column := by
  cases mode with
  | flat => exact ⟨.flat, h⟩
  | broken =>
    rcases h with h | h
    · exact ⟨.flat, h⟩
    · exact ⟨.broken, h⟩

end Doc

/-! ## Columns in range -/

/-- With the fragments, no column is reached that is not a signed number of 64 bits. -/
def InRange (column : Nat) (out : List Fragment) : Prop :=
  ∀ first, first <+: out → columnAfter column first < 9223372036854775808

instance (column : Nat) (out : List Fragment) : Decidable (InRange column out) :=
  decidable_of_iff (∀ first ∈ out.inits, columnAfter column first < 9223372036854775808)
    (forall_congr' fun first => imp_congr_left (List.mem_inits first out))

namespace InRange

variable {column : Nat} {first second : List Fragment}

theorem start (h : InRange column first) : column < 9223372036854775808 := h [] List.nil_prefix

theorem left (h : InRange column (first ++ second)) : InRange column first :=
  fun out hout => h out (hout.trans (List.prefix_append first second))

theorem right (h : InRange column (first ++ second)) :
    InRange (columnAfter column first) second := by
  intro out hout
  rw [← columnAfter_append]
  exact h (first ++ out) ((List.prefix_append_right_inj first).2 hout)

end InRange

/-! ## A margin that is kept -/

/-- With the fragments, a layout that starts in a column stays right of a margin. -/
structure Keeps (floor column : Nat) (out : List Fragment) : Prop where
  newline : ∀ n, .newline n ∈ out → floor ≤ n
  column : floor ≤ columnAfter column out

theorem Keeps.append {floor column : Nat} {first second : List Fragment}
    (hfirst : Keeps floor column first)
    (hsecond : Keeps floor (columnAfter column first) second) :
    Keeps floor column (first ++ second) := by
  refine ⟨fun n hn => ?_, ?_⟩
  · rcases List.mem_append.1 hn with hn | hn
    · exact hfirst.newline n hn
    · exact hsecond.newline n hn
  · rw [columnAfter_append]
    exact hsecond.column

theorem Keeps.text {floor column : Nat} (h : floor ≤ column) (s : String) :
    Keeps floor column [.text s] :=
  ⟨by simp, Nat.le_add_right_of_le h⟩

theorem Keeps.separator {floor column : Nat} (h : floor ≤ column) (s : String) :
    Keeps floor column (separator s) := by
  rw [Layout.separator]
  split
  · exact ⟨by simp, h⟩
  · exact .text h s

namespace Doc

/-- Every layout stays right of any margin that the document does not start left of, as long as the
margin is not further right than the indentation and `k` columns more. -/
def Hangs (k : Nat) (d : Doc) : Prop :=
  ∀ floor indent mode column, floor ≤ indent + k → floor ≤ column →
    ∀ out ∈ d.layouts indent mode column, InRange column out → Keeps floor column out

namespace Hangs

variable {a b d : Doc} {j k : Nat}

theorem mono (h : d.Hangs k) (hle : j ≤ k) : d.Hangs j :=
  fun floor indent mode column hindent => h floor indent mode column (by omega)

theorem nil : Hangs k .nil := by
  rintro floor indent mode column - hcolumn out rfl -
  exact ⟨by simp, hcolumn⟩

theorem text (s : String) : Hangs k (.text s) := by
  rintro floor indent mode column - hcolumn out rfl -
  exact .text hcolumn s

theorem hardline : Hangs 0 .hardline := by
  rintro floor indent mode column hindent - out rfl -
  exact ⟨by simpa using hindent, hindent⟩

theorem line (flat broken : String) : Hangs 0 (.line flat broken) := by
  intro floor indent mode column hindent hcolumn out hout _
  cases mode with
  | flat =>
    cases hout
    exact .separator hcolumn flat
  | broken =>
    cases hout
    have hbreak : Keeps floor column [.newline indent] := ⟨by simpa using hindent, hindent⟩
    exact hbreak.append (.separator hindent broken)

theorem seq (ha : a.Hangs k) (hb : b.Hangs k) : (a.seq b).Hangs k := by
  rintro floor indent mode column hindent hcolumn out ⟨first, hfirst, second, hsecond, rfl⟩ hrange
  have hkeeps := ha floor indent mode column hindent hcolumn first hfirst hrange.left
  exact hkeeps.append
    (hb floor indent mode _ hindent hkeeps.column second hsecond hrange.right)

theorem append (ha : a.Hangs k) (hb : b.Hangs k) : (a ++ b).Hangs k := by
  intro floor indent mode column
  rw [layouts_append]
  exact ha.seq hb floor indent mode column

/-- Line breaks inside get further right. -/
theorem nest (n : Nat) (hd : d.Hangs k) : (d.nest n).Hangs (k + n) := by
  intro floor indent mode column hindent
  rw [layouts_nest]
  refine hd floor (indented indent n) mode column ?_
  rw [indented]
  omega

theorem group (hd : d.Hangs k) : d.group.Hangs k := by
  intro floor indent mode column hindent hcolumn out hout
  obtain ⟨mode', hout⟩ := exists_mode_of_mem_layouts_group hout
  exact hd floor indent mode' column hindent hcolumn out hout

/-- A document that is aligned is indented to where it starts, whatever the indentation was.  This
is the only place where the columns have to be in range. -/
theorem align (hd : d.Hangs 0) : d.align.Hangs k := by
  intro floor indent mode column _ hcolumn out hout hrange
  have hlayouts : d.align.layouts indent mode column = d.layouts column mode column := by
    show (d.nest (signed column - indent)).layouts indent mode column = _
    rw [layouts_nest, signed_of_lt hrange.start, indented]
    congr 1
    omega
  rw [hlayouts] at hout
  exact hd floor column mode column hcolumn hcolumn out hout hrange

theorem foldl {f : Doc → Doc → Doc} (hf : ∀ {a d : Doc}, a.Hangs k → d.Hangs k → (f a d).Hangs k)
    {docs : List Doc} (h : ∀ d ∈ docs, d.Hangs k) (ha : a.Hangs k) : (docs.foldl f a).Hangs k := by
  induction docs generalizing a with
  | nil => exact ha
  | cons d rest ih =>
    obtain ⟨hd, hrest⟩ := List.forall_mem_cons.1 h
    exact ih hrest (hf ha hd)

theorem concat {docs : List Doc} (h : ∀ d ∈ docs, d.Hangs k) : (Doc.concat docs).Hangs k :=
  foldl append h nil

theorem join {separator : Doc} (hseparator : separator.Hangs k) {docs : List Doc}
    (h : ∀ d ∈ docs, d.Hangs k) : (Doc.join separator docs).Hangs k := by
  cases docs with
  | nil => exact nil
  | cons first rest =>
    obtain ⟨hfirst, hrest⟩ := List.forall_mem_cons.1 h
    exact foldl (fun ha hd => (ha.append hseparator).append hd) hrest hfirst

end Hangs
end Doc

/-! ## Documents in documents -/

/-- In fragments that start in a column, `inner` is a layout of a document: that of an occurrence
with `before` in front of it and `after` behind it. -/
structure Within (part : Doc) (column : Nat) (out before inner after : List Fragment) : Prop where
  eq : out = before ++ inner ++ after
  layout : ∃ indent mode, inner ∈ part.layouts indent mode (columnAfter column before)

namespace Doc

/-- In every layout of the document there is a layout of the part. -/
def Holds (d part : Doc) : Prop :=
  ∀ indent mode column, ∀ out ∈ d.layouts indent mode column,
    ∃ before inner after, Within part column out before inner after

namespace Holds

variable {a b d part : Doc}

/-- A document that has the same layouts, if perhaps with another indentation and mode. -/
theorem of_layouts (h : ∀ indent mode column, ∀ out ∈ d.layouts indent mode column,
    ∃ indent' mode', out ∈ part.layouts indent' mode' column) : d.Holds part :=
  fun indent mode column out hout => ⟨[], out, [], by simp, h indent mode column out hout⟩

theorem refl (d : Doc) : d.Holds d :=
  of_layouts fun indent mode _ _ hout => ⟨indent, mode, hout⟩

theorem trans (hd : d.Holds a) (ha : a.Holds part) : d.Holds part := by
  intro indent mode column out hout
  obtain ⟨before, inner, after, rfl, indent', mode', hinner⟩ := hd indent mode column out hout
  obtain ⟨before', part', after', rfl, hpart⟩ := ha indent' mode' _ inner hinner
  refine ⟨before ++ before', part', after' ++ after, by simp, ?_⟩
  rwa [columnAfter_append]

theorem append_left (a b : Doc) : (a ++ b).Holds a := by
  intro indent mode column out hout
  rw [layouts_append] at hout
  obtain ⟨first, hfirst, second, -, rfl⟩ := hout
  exact ⟨[], first, second, by simp, indent, mode, hfirst⟩

theorem append_right (a b : Doc) : (a ++ b).Holds b := by
  intro indent mode column out hout
  rw [layouts_append] at hout
  obtain ⟨first, -, second, hsecond, rfl⟩ := hout
  exact ⟨first, second, [], by simp, indent, mode, hsecond⟩

theorem nest (n : Int) (d : Doc) : (d.nest n).Holds d :=
  of_layouts fun indent mode column _ hout =>
    ⟨indented indent n, mode, layouts_nest n d indent mode column ▸ hout⟩

theorem group (d : Doc) : d.group.Holds d :=
  of_layouts fun indent _ _ _ hout => ⟨indent, exists_mode_of_mem_layouts_group hout⟩

theorem align (d : Doc) : d.align.Holds d := by
  intro indent mode column
  exact nest (signed column - indent) d indent mode column

theorem surround (opening closing : String) (d : Doc) :
    (Doc.surround opening d closing).Holds d :=
  (append_left _ _).trans (append_right _ _)

theorem foldl {f : Doc → Doc → Doc} (hleft : ∀ a d : Doc, (f a d).Holds a)
    (hright : ∀ a d : Doc, (f a d).Holds d) (a : Doc) (docs : List Doc) :
    (docs.foldl f a).Holds a ∧ ∀ d ∈ docs, (docs.foldl f a).Holds d := by
  induction docs generalizing a with
  | nil => exact ⟨refl a, List.forall_mem_nil _⟩
  | cons d rest ih =>
    obtain ⟨hfirst, hrest⟩ := ih (f a d)
    exact ⟨hfirst.trans (hleft a d), List.forall_mem_cons.2 ⟨hfirst.trans (hright a d), hrest⟩⟩

theorem concat {docs : List Doc} (h : d ∈ docs) : (Doc.concat docs).Holds d :=
  (foldl append_left append_right .nil docs).2 d h

theorem join (separator : Doc) {docs : List Doc} (h : d ∈ docs) :
    (Doc.join separator docs).Holds d := by
  cases docs with
  | nil => simp at h
  | cons first rest =>
    have hjoin := foldl (f := fun joined d => joined ++ separator ++ d)
      (fun a d => (append_left _ d).trans (append_left a separator))
      (fun a d => append_right _ d) first rest
    rcases List.mem_cons.1 h with rfl | h
    · exact hjoin.1
    · exact hjoin.2 d h

end Holds

/-- In every layout of the document, the part starts a line that is indented by `k` more columns,
and is laid out with that indentation. -/
def Starts (k : Nat) (d part : Doc) : Prop :=
  ∀ indent mode column, ∀ out ∈ d.layouts indent mode column, ∃ before inner after,
    out = before ++ .newline (indent + k) :: inner ++ after ∧
      inner ∈ part.layouts (indent + k) mode (indent + k)

namespace Starts

variable {a b d part : Doc} {k : Nat}

theorem hardline (d : Doc) : Starts 0 (.hardline ++ d) d := by
  intro indent mode column out hout
  rw [layouts_append] at hout
  obtain ⟨first, rfl, second, hsecond, rfl⟩ := hout
  exact ⟨[], second, [], by simp, hsecond⟩

theorem append_left (h : a.Starts k part) (b : Doc) : (a ++ b).Starts k part := by
  intro indent mode column out hout
  rw [layouts_append] at hout
  obtain ⟨first, hfirst, second, -, rfl⟩ := hout
  obtain ⟨before, inner, after, rfl, hinner⟩ := h indent mode column first hfirst
  exact ⟨before, inner, after ++ second, by simp, hinner⟩

theorem append_right (h : b.Starts k part) (a : Doc) : (a ++ b).Starts k part := by
  intro indent mode column out hout
  rw [layouts_append] at hout
  obtain ⟨first, -, second, hsecond, rfl⟩ := hout
  obtain ⟨before, inner, after, rfl, hinner⟩ := h indent mode _ second hsecond
  exact ⟨first ++ before, inner, after, by simp, hinner⟩

theorem nest (n : Nat) (h : d.Starts k part) : (d.nest n).Starts (k + n) part := by
  intro indent mode column out hout
  rw [layouts_nest] at hout
  obtain ⟨before, inner, after, rfl, hinner⟩ := h _ mode column out hout
  have hindent : indented indent n + k = indent + (k + n) := by
    rw [indented]
    omega
  rw [hindent] at hinner ⊢
  exact ⟨before, inner, after, rfl, hinner⟩

theorem assoc : (a ++ (b ++ d)).Starts k part ↔ (a ++ b ++ d).Starts k part := by
  simp only [Starts, layouts_append_append]

/-- Documents with blank lines between them start lines of the same indentation. -/
theorem join {docs : List Doc} (h : d ∈ docs) :
    Starts 0 (.hardline ++ Doc.join (.hardline ++ .hardline) docs) d := by
  have hfoldl : ∀ (rest : List Doc) (first : Doc),
      Starts 0 (.hardline ++ first) d ∨ d ∈ rest →
      Starts 0 (.hardline ++ rest.foldl (fun joined d => joined ++ (.hardline ++ .hardline) ++ d)
        first) d := by
    intro rest
    induction rest with
    | nil => exact fun first hfirst => hfirst.resolve_right List.not_mem_nil
    | cons next rest ih =>
      intro first hfirst
      refine ih _ ?_
      rcases hfirst with hfirst | hmem
      · exact .inl (assoc.2 ((assoc.2 (hfirst.append_left _)).append_left next))
      · rcases List.mem_cons.1 hmem with rfl | hmem
        · have hblank : Starts 0 (.hardline ++ .hardline ++ d) d :=
            assoc.1 ((hardline d).append_right .hardline)
          exact .inl ((assoc.1 (hblank.append_right first)).append_right .hardline)
        · exact .inr hmem
  cases docs with
  | nil => simp at h
  | cons first rest =>
    refine hfoldl rest first ?_
    rcases List.mem_cons.1 h with rfl | h
    · exact .inl (.hardline d)
    · exact .inr h

end Starts
end Doc
end ElmWire.Layout
