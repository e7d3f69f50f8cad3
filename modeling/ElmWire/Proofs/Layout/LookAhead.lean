import ElmWire.Proofs.Layout.Group

/-!
# The look ahead

When the layout comes to a group, everything up to the end of the line counts, and that may depend
on groups further on, which are not decided yet.  There may be many of them, each with two ways to
be laid out.  The look ahead tries only one: it takes all of them to be broken.

For documents that are built from texts, line breaks and groups (`Doc.Simple`) nothing is lost by
that.  A group that is broken never makes the current line longer (`Simple.exists_noLater`): either
it breaks the line, no later than the end of what it would be when flat, or it has no line break to
break and is the same in both modes.  So the line can be made to fit exactly if it fits with
everything broken (`Simple.foresees`), and **a group is laid out flat exactly if that leaves some
way for the line to end on the page** (`flat_iff_exists_fit`).
-/

set_option autoImplicit false
namespace ElmWire.Layout

/-! ## Simple documents -/

/-- A document that is built from texts, line breaks and groups. -/
inductive Doc.Simple : Doc → Prop
  | nil : Simple .nil
  | text (s : String) : Simple (.text s)
  | seq {a b : Doc} (ha : Simple a) (hb : Simple b) : Simple (.seq a b)
  | indent (n : Nat) {d : Doc} (h : Simple d) : Simple (.indent n d)
  | line (flat broken : String) : Simple (.line flat broken)
  | hardline : Simple .hardline
  | group {d : Doc} (h : Simple d) : Simple d.group

namespace Doc.Simple

theorem append {a b : Doc} (ha : a.Simple) (hb : b.Simple) : (a ++ b).Simple := by
  show (Doc.append a b).Simple
  rw [Doc.append]
  split
  · exact hb
  · split
    · exact ha
    · exact ha.seq hb

/-- The flat layout of a simple document is one line, unless there is a hard line break in its
flattening. -/
theorem oneLine_flatLayout_iff {d : Doc} (h : d.Simple) (indent column : Nat) :
    OneLine (d.flatLayout indent column) ↔ ¬ d.flattening.HasHardline := by
  induction h generalizing indent column with
  | nil => simp [flatLayout, flattening, HasHardline, oneLine_nil]
  | text s => simp [flatLayout, flattening, HasHardline, oneLine_text]
  | seq _ _ iha ihb => simp [flatLayout, flattening, HasHardline, Layout.oneLine_append, iha, ihb]
  | indent n _ ih => exact ih (indented indent n) column
  | line flat broken =>
    have hflat : ¬ (Doc.line flat broken).flattening.HasHardline := by
      rw [flattening]
      split <;> exact id
    exact iff_of_true (oneLine_separator flat) hflat
  | hardline => exact iff_of_false (not_oneLine_newline indent []) (not_not_intro trivial)
  | group _ ih => exact ih indent column

end Doc.Simple

/-! ## Where a line ends -/

/-- The column in which the current line ends, if it goes on with some fragments. -/
def lineEnd : Nat → List Fragment → Nat
  | column, [] => column
  | column, .text s :: rest => lineEnd (column + textWidth s) rest
  | column, .newline _ :: _ => column

theorem le_lineEnd (column : Nat) (fragments : List Fragment) :
    column ≤ lineEnd column fragments := by
  induction fragments generalizing column with
  | nil => exact Nat.le_refl column
  | cons fragment rest ih =>
    cases fragment with
    | text s => exact Nat.le_trans (Nat.le_add_right ..) (ih _)
    | newline indent => exact Nat.le_refl column

/-- Behind one line of fragments, the line goes on. -/
theorem OneLine.lineEnd_append {first : List Fragment} (h : OneLine first) (column : Nat)
    (second : List Fragment) :
    lineEnd column (first ++ second) = lineEnd (columnAfter column first) second := by
  induction first generalizing column with
  | nil => rfl
  | cons fragment rest ih =>
    cases fragment with
    | newline indent => exact absurd h (not_oneLine_newline indent rest)
    | text s => exact ih (fun indent hmem => h indent (List.mem_cons_of_mem _ hmem)) _

/-- Nothing behind a line break belongs to the line. -/
theorem lineEnd_append_of_not_oneLine {first : List Fragment} (h : ¬ OneLine first) (column : Nat)
    (second : List Fragment) : lineEnd column (first ++ second) = lineEnd column first := by
  induction first generalizing column with
  | nil => exact absurd oneLine_nil h
  | cons fragment rest ih =>
    cases fragment with
    | newline indent => rfl
    | text s =>
      refine ih (fun hrest => h fun indent hmem => ?_) _
      exact hrest indent ((List.mem_cons.1 hmem).resolve_left (by simp))

theorem lineEnd_le_append (column : Nat) (first second : List Fragment) :
    lineEnd column first ≤ lineEnd column (first ++ second) := by
  by_cases h : OneLine first
  · have hfirst := h.lineEnd_append column []
    rw [List.append_nil] at hfirst
    rw [hfirst, h.lineEnd_append]
    exact le_lineEnd _ second
  · rw [lineEnd_append_of_not_oneLine h]

/-! ## Breaking a document -/

/-- From a column on, the fragments `broken` are the fragments `flat`, or else they break the line,
and that no later than `flat` would end it. -/
def NoLater (column : Nat) (broken flat : List Fragment) : Prop :=
  broken = flat ∨ ¬ OneLine broken ∧ lineEnd column broken ≤ lineEnd column flat

theorem NoLater.append {column : Nat} {broken flat broken' flat' : List Fragment}
    (h : NoLater column broken flat)
    (h' : broken = flat → NoLater (columnAfter column broken) broken' flat') :
    NoLater column (broken ++ broken') (flat ++ flat') := by
  rcases h with heq | ⟨hbreak, hle⟩
  · rcases h' heq with heq' | ⟨hbreak', hle'⟩
    · exact .inl (by rw [heq, heq'])
    · subst heq
      refine .inr ⟨fun hline => hbreak' (oneLine_append.1 hline).2, ?_⟩
      by_cases hfirst : OneLine broken
      · rwa [hfirst.lineEnd_append, hfirst.lineEnd_append]
      · rw [lineEnd_append_of_not_oneLine hfirst, lineEnd_append_of_not_oneLine hfirst]
  · refine .inr ⟨fun hline => hbreak (oneLine_append.1 hline).1, ?_⟩
    rw [lineEnd_append_of_not_oneLine hbreak]
    exact Nat.le_trans hle (lineEnd_le_append column flat flat')

/-- Whatever follows, there is a way to go on with which the line ends no later. -/
theorem NoLater.exists_append {column : Nat} {broken flat second : List Fragment}
    {later : Nat → Set (List Fragment)} (h : NoLater column broken flat)
    (hlater : ∀ column, (later column).Nonempty)
    (hsecond : second ∈ later (columnAfter column flat)) :
    ∃ second' ∈ later (columnAfter column broken),
      lineEnd column (broken ++ second') ≤ lineEnd column (flat ++ second) := by
  rcases h with rfl | ⟨hbreak, hle⟩
  · exact ⟨second, hsecond, Nat.le_refl _⟩
  · obtain ⟨second', hsecond'⟩ := hlater (columnAfter column broken)
    refine ⟨second', hsecond', ?_⟩
    rw [lineEnd_append_of_not_oneLine hbreak]
    exact Nat.le_trans hle (lineEnd_le_append column flat second)

/-- **A document that is broken does not make the line longer.** -/
theorem Doc.Simple.exists_noLater {d : Doc} (h : d.Simple) (indent column : Nat) :
    ∃ broken ∈ d.layouts indent .broken column,
      NoLater column broken (d.flatLayout indent column) := by
  induction h generalizing indent column with
  | nil | text s | hardline => exact ⟨_, rfl, .inl rfl⟩
  | line flat broken =>
    exact ⟨_, rfl, .inr ⟨not_oneLine_newline _ _, le_lineEnd column (separator flat)⟩⟩
  | indent n _ ih => exact ih (indented indent n) column
  | group _ _ =>
    -- The flat layout is one of the layouts of a group.
    exact ⟨_, .inl (mem_layouts_flat.2 rfl), .inl rfl⟩
  | seq _ _ iha ihb =>
    obtain ⟨first, hfirst, hle⟩ := iha indent column
    obtain ⟨second, hsecond, hle'⟩ := ihb indent (columnAfter column first)
    refine ⟨first ++ second, ⟨first, hfirst, second, hsecond, rfl⟩, hle.append fun heq => ?_⟩
    -- The first document is as it is when flat, so the second starts in the same column.
    rwa [← heq]

/-! ## The choices for what is pending -/

/-- A layout of the one kind and then, from the column that is reached with it, one of the other. -/
def followedBy (first later : Nat → Set (List Fragment)) (column : Nat) : Set (List Fragment) :=
  {out | ∃ a ∈ first column, ∃ b ∈ later (columnAfter column a), out = a ++ b}

/-- The ways to lay out what is pending, from a column on. -/
def layoutsAll : List Pending → Nat → Set (List Fragment)
  | [] => fun _ => {[]}
  | next :: rest => followedBy (next.doc.layouts next.indent next.mode) (layoutsAll rest)

theorem followedBy_nil (later : Nat → Set (List Fragment)) :
    followedBy (fun _ => {[]}) later = later := by
  funext column
  ext out
  constructor
  · rintro ⟨_, rfl, b, hb, rfl⟩
    exact hb
  · exact fun hout => ⟨[], rfl, out, hout, rfl⟩

theorem followedBy_assoc (first second third : Nat → Set (List Fragment)) :
    followedBy (followedBy first second) third = followedBy first (followedBy second third) := by
  funext column
  ext out
  constructor
  · rintro ⟨_, ⟨a, ha, b, hb, rfl⟩, c, hc, rfl⟩
    rw [columnAfter_append] at hc
    exact ⟨a, ha, b ++ c, ⟨b, hb, c, hc, rfl⟩, List.append_assoc a b c⟩
  · rintro ⟨a, ha, _, ⟨b, hb, c, hc, rfl⟩, rfl⟩
    rw [← columnAfter_append] at hc
    exact ⟨a ++ b, ⟨a, ha, b, hb, rfl⟩, c, hc, (List.append_assoc a b c).symm⟩

/-- A look ahead answers whether there is a way to go on with which the line fits. -/
structure Foresees (fits : Int → Nat → Bool) (later : Nat → Set (List Fragment)) : Prop where
  nonempty : ∀ column, (later column).Nonempty
  fits_iff : ∀ {room : Int} (column : Nat), 0 ≤ room →
    (fits room column = true ↔ ∃ out ∈ later column, lineEnd column out ≤ column + room)

namespace Foresees

variable {fits : Int → Nat → Bool} {later : Nat → Set (List Fragment)}

theorem nothing : Foresees (fun _ _ => true) fun _ => {[]} where
  nonempty _ := ⟨[], rfl⟩
  fits_iff column hroom := by
    refine iff_of_true rfl ⟨[], rfl, ?_⟩
    rw [lineEnd]
    omega

theorem text (h : Foresees fits later) (s : String) :
    Foresees (fitsText (textWidth s) fits) (followedBy (fun _ => {[.text s]}) later) where
  nonempty column := by
    obtain ⟨out, hout⟩ := h.nonempty (column + textWidth s)
    exact ⟨_, [.text s], rfl, out, hout, rfl⟩
  fits_iff {room} column _ := by
    rw [fitsText_iff]
    constructor
    · rintro ⟨hwidth, hfits⟩
      obtain ⟨out, hout, hend⟩ := (h.fits_iff _ (Int.sub_nonneg.2 hwidth)).1 hfits
      refine ⟨_, ⟨[.text s], rfl, out, hout, rfl⟩, ?_⟩
      show lineEnd (column + textWidth s) out ≤ column + room
      omega
    · rintro ⟨_, ⟨_, rfl, out, hout, rfl⟩, hend⟩
      have hend : lineEnd (column + textWidth s) out ≤ column + room := hend
      have hle := le_lineEnd (column + textWidth s) out
      have hwidth : textWidth s ≤ room := by omega
      exact ⟨hwidth, (h.fits_iff _ (Int.sub_nonneg.2 hwidth)).2 ⟨out, hout, by omega⟩⟩

/-- A line break ends the line where it is. -/
theorem newline (h : Foresees fits later) (indent : Nat) (tail : List Fragment) :
    Foresees (fun _ _ => true) (followedBy (fun _ => {.newline indent :: tail}) later) := by
  have hway : ∀ column, ∃ out ∈ followedBy (fun _ => {.newline indent :: tail}) later column,
      lineEnd column out = column := by
    intro column
    obtain ⟨out, hout⟩ := h.nonempty (columnAfter column (.newline indent :: tail))
    exact ⟨_, ⟨_, rfl, out, hout, rfl⟩, rfl⟩
  refine ⟨fun column => ?_, fun column hroom => iff_of_true rfl ?_⟩
  · obtain ⟨out, hout, -⟩ := hway column
    exact ⟨out, hout⟩
  · obtain ⟨out, hout, hend⟩ := hway column
    exact ⟨out, hout, by omega⟩

/-- What the look ahead does not try need not be tried, if it never ends the line earlier than what
the look ahead does try. -/
theorem union {flat broken : Nat → Set (List Fragment)}
    (h : Foresees fits (followedBy broken later))
    (hlater : ∀ column, (later column).Nonempty)
    (hflat : ∀ column, ∀ a ∈ flat column, ∃ b ∈ broken column, NoLater column b a) :
    Foresees fits (followedBy (fun column => flat column ∪ broken column) later) where
  nonempty column := by
    obtain ⟨out, first, hfirst, hrest⟩ := h.nonempty column
    exact ⟨out, first, .inr hfirst, hrest⟩
  fits_iff column hroom := by
    rw [h.fits_iff column hroom]
    constructor
    · rintro ⟨out, ⟨first, hfirst, hrest⟩, hend⟩
      exact ⟨out, ⟨first, .inr hfirst, hrest⟩, hend⟩
    · rintro ⟨_, ⟨first, hfirst | hfirst, second, hsecond, rfl⟩, hend⟩
      · obtain ⟨first', hfirst', hle⟩ := hflat column first hfirst
        obtain ⟨second', hsecond', hle⟩ := hle.exists_append hlater hsecond
        exact ⟨_, ⟨first', hfirst', second', hsecond', rfl⟩, by omega⟩
      · exact ⟨_, ⟨first, hfirst, second, hsecond, rfl⟩, hend⟩

end Foresees

/-- **Looking ahead with everything broken** finds out whether the line can be made to fit. -/
theorem Doc.Simple.foresees {d : Doc} (hd : d.Simple) :
    ∀ (indent : Nat) {fits : Int → Nat → Bool} {later : Nat → Set (List Fragment)},
      Foresees fits later →
        Foresees (d.fits indent .broken fits) (followedBy (d.layouts indent .broken) later) := by
  induction hd with
  | nil =>
    intro indent fits later h
    have hnil : Doc.nil.layouts indent .broken = fun _ => {[]} := rfl
    rwa [hnil, followedBy_nil]
  | text s => exact fun _ _ _ h => h.text s
  | line flat broken => exact fun indent _ _ h => h.newline indent (separator broken)
  | hardline => exact fun indent _ _ h => h.newline indent []
  | indent n _ ih => exact fun indent _ _ h => ih (indented indent n) h
  | @seq a b _ _ iha ihb =>
    intro indent fits later h
    have hseq : (Doc.seq a b).layouts indent .broken =
        followedBy (a.layouts indent .broken) (b.layouts indent .broken) := rfl
    rw [hseq, followedBy_assoc]
    exact iha indent (ihb indent h)
  | @group d hd ih =>
    intro indent fits later h
    refine (ih indent h).union h.nonempty fun column flat hflat => ?_
    rw [mem_layouts_flat.1 hflat]
    exact hd.exists_noLater indent column

theorem foresees_fitsAll {pending : List Pending}
    (h : ∀ p ∈ pending, p.mode = .broken ∧ p.doc.Simple) :
    Foresees (fitsAll pending) (layoutsAll pending) := by
  induction pending with
  | nil => exact .nothing
  | cons next rest ih =>
    obtain ⟨⟨hmode, hdoc⟩, hrest⟩ := List.forall_mem_cons.1 h
    rw [fitsAll, layoutsAll, hmode]
    exact hdoc.foresees next.indent (ih hrest)

/-- With simple documents in broken mode behind it, a group is flat exactly if it is one line then
and there is a way to go on with which that line fits. -/
theorem takesFlat_simple_iff {width indent column : Nat} {d : Doc} {rest : List Pending}
    (hd : d.Simple) (hrest : ∀ p ∈ rest, p.mode = .broken ∧ p.doc.Simple) :
    takesFlat width (.flatten d) indent column rest = true ↔
      ¬ d.flattening.HasHardline ∧ ∃ out ∈ layoutsAll (⟨indent, .flat, d⟩ :: rest) column,
        lineEnd column out ≤ column + (signed width - signed column) := by
  rw [takesFlat_flatten_iff, ← hd.oneLine_flatLayout_iff indent column, FitsInto, and_assoc]
  refine and_congr_right fun hline => ?_
  have hcolumn := hline.columnAfter_eq column
  constructor
  · rintro ⟨hwidth, hfits⟩
    obtain ⟨out, hout, hend⟩ :=
      ((foresees_fitsAll hrest).fits_iff _ (Int.sub_nonneg.2 hwidth)).1 hfits
    refine ⟨_, ⟨_, mem_layouts_flat.2 rfl, out, hcolumn ▸ hout, rfl⟩, ?_⟩
    rw [hline.lineEnd_append, hcolumn]
    omega
  · rintro ⟨_, ⟨first, hfirst, out, hout, rfl⟩, hend⟩
    obtain rfl := mem_layouts_flat.1 hfirst
    rw [hline.lineEnd_append, hcolumn] at hend
    rw [hcolumn] at hout
    have hle := le_lineEnd (column + totalWidth (d.flatLayout indent column)) out
    have hwidth : totalWidth (d.flatLayout indent column) ≤ signed width - signed column := by omega
    refine ⟨hwidth,
      ((foresees_fitsAll hrest).fits_iff _ (Int.sub_nonneg.2 hwidth)).2 ⟨out, hout, ?_⟩⟩
    omega

/-! ## What is pending at a group -/

/-- Behind a document in broken mode, all documents are in broken mode. -/
def BrokenBehind (pending : List Pending) : Prop :=
  pending.Pairwise fun p q => p.mode = .broken → q.mode = .broken

theorem brokenBehind_cons {p : Pending} {rest : List Pending} :
    BrokenBehind (p :: rest) ↔
      (p.mode = .broken → ∀ q ∈ rest, q.mode = .broken) ∧ BrokenBehind rest := by
  rw [BrokenBehind, List.pairwise_cons]
  exact and_congr_left fun _ =>
    ⟨fun h hmode q hmem => h q hmem hmode, fun h q hmem hmode => h hmode q hmem⟩

/-- **One step** keeps flat mode in front of broken mode: it puts documents of the same mode in the
place of one, or of flat mode. -/
theorem BrokenBehind.step {width column : Nat} {next : Pending} {rest : List Pending}
    (h : BrokenBehind (next :: rest)) : BrokenBehind (next.step width column rest).2.pending := by
  obtain ⟨hnext, hrest⟩ := brokenBehind_cons.1 h
  obtain ⟨indent, mode, d⟩ := next
  have hsame : ∀ indent' d', BrokenBehind (⟨indent', mode, d'⟩ :: rest) := fun _ _ =>
    brokenBehind_cons.2 ⟨hnext, hrest⟩
  cases d with
  | nil | text s | hardline => exact hrest
  | indent n d => exact hsame _ d
  | column f => exact hsame indent (f column)
  | nesting f => exact hsame indent (f indent)
  | flatten d => exact brokenBehind_cons.2 ⟨fun hmode => absurd hmode (by simp), hrest⟩
  | seq a b =>
    refine brokenBehind_cons.2 ⟨fun hmode => ?_, hsame indent b⟩
    exact List.forall_mem_cons.2 ⟨hmode, hnext hmode⟩
  | line flat broken =>
    cases mode with
    | flat =>
      rw [Pending.step]
      split <;> exact hrest
    | broken =>
      rw [Pending.step]
      split
      · exact hrest
      · exact hsame indent (.text broken)
  | union a b =>
    cases mode with
    | flat => exact hsame indent a
    | broken =>
      rw [Pending.step]
      split
      · exact hsame indent a
      · exact hsame indent b

/-- **Any number of steps** keep it, and a whole document is in broken mode. -/
theorem brokenBehind_after (width start n : Nat) (d : Doc) :
    BrokenBehind ((State.start start d).after width n).2.pending :=
  after_induction (P := fun s => BrokenBehind s.pending) (fun _ _ _ h => h.step) n
    (List.pairwise_singleton ..)

/-- The documents are simple, except that the first may be the flattening of a simple one. -/
def SimpleBehind : List Pending → Prop
  | [] => True
  | next :: rest => (next.doc.Simple ∨ ∃ d : Doc, d.Simple ∧ next.doc = .flatten d) ∧
    ∀ p ∈ rest, p.doc.Simple

theorem simpleBehind_of_forall {pending : List Pending} (h : ∀ p ∈ pending, p.doc.Simple) :
    SimpleBehind pending := by
  cases pending with
  | nil => exact trivial
  | cons next rest =>
    obtain ⟨hnext, hrest⟩ := List.forall_mem_cons.1 h
    exact ⟨.inl hnext, hrest⟩

/-- **One step** in a layout of simple documents. -/
theorem SimpleBehind.step {width column : Nat} {next : Pending} {rest : List Pending}
    (h : SimpleBehind (next :: rest)) : SimpleBehind (next.step width column rest).2.pending := by
  obtain ⟨indent, mode, doc⟩ := next
  obtain ⟨hdoc | ⟨d, hd, hdoc⟩, hrest⟩ := h
  · have hrest' : SimpleBehind rest := simpleBehind_of_forall hrest
    cases hdoc with
    | nil | text s | hardline => exact hrest'
    | indent n h => exact ⟨.inl h, hrest⟩
    | seq ha hb => exact ⟨.inl ha, List.forall_mem_cons.2 ⟨hb, hrest⟩⟩
    | line flat broken =>
      cases mode with
      | flat =>
        rw [Pending.step]
        split <;> exact hrest'
      | broken =>
        rw [Pending.step]
        split
        · exact hrest'
        · exact ⟨.inl (.text broken), hrest⟩
    | group h =>
      cases mode with
      | flat => exact ⟨.inr ⟨_, h, rfl⟩, hrest⟩
      | broken =>
        rw [Pending.step]
        split
        · exact ⟨.inr ⟨_, h, rfl⟩, hrest⟩
        · exact ⟨.inl h, hrest⟩
  · obtain rfl : doc = .flatten d := hdoc
    exact ⟨.inl hd, hrest⟩

/-- When a group is reached in broken mode, everything behind it is simple and in broken mode. -/
theorem behind_of_reached {width start n column indent : Nat} {doc d : Doc} {rest : List Pending}
    (hdoc : doc.Simple) (hreached : ((State.start start doc).after width n).2 =
      ⟨column, ⟨indent, .broken, d.group⟩ :: rest⟩) :
    d.Simple ∧ ∀ p ∈ rest, p.mode = .broken ∧ p.doc.Simple := by
  have hmodes := brokenBehind_after width start n doc
  have hsimple : SimpleBehind ((State.start start doc).after width n).2.pending :=
    after_induction (P := fun s => SimpleBehind s.pending) (fun _ _ _ h => h.step) n
      ⟨.inl hdoc, by simp⟩
  rw [hreached] at hmodes hsimple
  have hbroken := (brokenBehind_cons.1 hmodes).1 rfl
  obtain ⟨hgroup | ⟨_, -, hflatten⟩, hrest⟩ := hsimple
  · cases hgroup with
    | group hd => exact ⟨hd, fun p hmem => ⟨hbroken p hmem, hrest p hmem⟩⟩
  · cases hflatten

/-! ## No fit is missed -/

theorem step_group_iff {width indent column : Nat} {d : Doc} {rest : List Pending} :
    (Pending.step width column rest ⟨indent, .broken, d.group⟩).1 = some (.choose column true) ↔
      takesFlat width (.flatten d) indent column rest = true := by
  rw [Doc.group, Pending.step]
  split
  · next h => simp [h]
  · next h => simp [h]

/-- On a page that is wider than any signed number, nothing has room. -/
theorem takesFlat_of_wide {width indent column : Nat} {flat : Doc} {rest : List Pending}
    (hwidth : width < 18446744073709551616) (hcolumn : column < 9223372036854775808)
    (hwide : 9223372036854775808 ≤ width) : takesFlat width flat indent column rest = false := by
  have hroom : ¬ 0 ≤ signed width - signed column := by
    rw [signed_of_lt hcolumn, signed, if_neg (Nat.not_lt.2 hwide)]
    omega
  rw [takesFlat, decide_eq_false hroom, Bool.false_and]

/-- **The look ahead misses no fit.**  In a simple document, a group that may be broken is laid out
flat exactly if it is one line then and there is some choice for everything pending behind it with
which that line ends on the page.  That is so on pages whose width is a signed number of 64 bits.
On wider pages no group is flat, if the difference of width and column is such a number. -/
theorem flat_iff_exists_fit {width : Nat} (hwidth : width < 18446744073709551616) (start : Nat)
    {doc : Doc} (hdoc : doc.Simple) :
    (∃ n, ((State.start start doc).after width n).2.pending = [] ∧
      fragments ((State.start start doc).after width n).1 = (best width start doc).toList) ∧
    ∀ (n column indent : Nat) (d : Doc) (rest : List Pending),
      ((State.start start doc).after width n).2 = ⟨column, ⟨indent, .broken, d.group⟩ :: rest⟩ →
      column < 9223372036854775808 →
      (width < 9223372036854775808 →
        ((Pending.step width column rest ⟨indent, .broken, d.group⟩).1 =
            some (.choose column true) ↔
          ¬ d.flattening.HasHardline ∧
            ∃ out ∈ layoutsAll (⟨indent, .flat, d⟩ :: rest) column, lineEnd column out ≤ width)) ∧
      (9223372036854775808 + column ≤ width →
        (Pending.step width column rest ⟨indent, .broken, d.group⟩).1 =
          some (.choose column false)) := by
  refine ⟨exists_fragments_after width start doc, ?_⟩
  intro n column indent d rest hreached hcolumn
  refine ⟨fun hnarrow => ?_, fun hwide => ?_⟩
  · obtain ⟨hd, hrest⟩ := behind_of_reached hdoc hreached
    rw [step_group_iff, takesFlat_simple_iff hd hrest, signed_of_lt hcolumn, signed_of_lt hnarrow]
    have hpage : ∀ out, (lineEnd column out : Int) ≤ column + (width - column) ↔
        lineEnd column out ≤ width := by omega
    simp only [hpage]
  · have hbroken : takesFlat width (.flatten d) indent column rest = false :=
      takesFlat_of_wide hwidth hcolumn (by omega)
    rw [Doc.group, Pending.step, hbroken]
    rfl

/-- Two words in a group. -/
def wordPair : Doc := .text "a" ++ .space ++ .text "b"

theorem simple_wordPair : wordPair.Simple :=
  ((Doc.Simple.text "a").append (.line " " "")).append (.text "b")

/-- Behind a pair of words is another group, and a word that sticks to it. -/
theorem flat_iff_exists_fit_wordPair :
    let behind : Doc := .seq (.group (.seq .space (.text "c"))) (.text "tail")
    let doc : Doc := .seq wordPair.group behind
    doc.Simple ∧
      (∀ width, ((State.start 0 doc).after width 1).2 =
        ⟨0, [⟨0, .broken, wordPair.group⟩, ⟨0, .broken, behind⟩]⟩) ∧
      -- Three columns are enough, since the group behind the pair may be broken.
      (best 3 0 doc).toList =
        [.text "a", .text " ", .text "b", .newline 0, .text "c", .text "tail"] ∧
      ¬ wordPair.flattening.HasHardline ∧
      (∃ out ∈ layoutsAll [⟨0, .flat, wordPair⟩, ⟨0, .broken, behind⟩] 0, lineEnd 0 out ≤ 3) ∧
      -- Two columns are not enough, however it is laid out.
      ∀ out ∈ layoutsAll [⟨0, .flat, wordPair⟩, ⟨0, .broken, behind⟩] 0, 2 < lineEnd 0 out := by
  intro behind doc
  have hdoc : doc.Simple :=
    simple_wordPair.group.seq
      ((((Doc.Simple.line " " "").seq (.text "c")).group).seq (.text "tail"))
  have hthree := (flat_iff_exists_fit (by decide) 0 hdoc).2 1 0 0 wordPair
    [⟨0, .broken, behind⟩] (rfl : ((State.start 0 doc).after 3 1).2 = _) (by decide)
  have htwo := (flat_iff_exists_fit (by decide) 0 hdoc).2 1 0 0 wordPair
    [⟨0, .broken, behind⟩] (rfl : ((State.start 0 doc).after 2 1).2 = _) (by decide)
  obtain ⟨hline, hway⟩ := (hthree.1 (by decide)).1 rfl
  refine ⟨hdoc, fun _ => rfl, rfl, hline, hway, fun out hout => Nat.lt_of_not_le fun hle => ?_⟩
  exact absurd ((htwo.1 (by decide)).2 ⟨hline, out, hout, hle⟩) (by decide)

/-- On the widest of all pages the pair of words is broken, though it takes up three columns. -/
theorem wordPair_broken_on_widest_page :
    wordPair.group.Simple ∧
      ((State.start 0 wordPair.group).after 18446744073709551615 0).2 =
        ⟨0, [⟨0, .broken, wordPair.group⟩]⟩ ∧
      ¬ wordPair.flattening.HasHardline ∧
      (∃ out ∈ layoutsAll [⟨0, .flat, wordPair⟩] 0, lineEnd 0 out ≤ 18446744073709551615) ∧
      (Pending.step 18446744073709551615 0 [] ⟨0, .broken, wordPair.group⟩).1 ≠
        some (.choose 0 true) ∧
      (best 18446744073709551615 0 wordPair.group).toList =
        [.text "a", .newline 0, .text "b"] := by
  have hline : OneLine [.text "a", .text " ", .text "b"] := by simp [OneLine]
  refine ⟨simple_wordPair.group, rfl, (simple_wordPair.oneLine_flatLayout_iff 0 0).1 hline, ?_,
    by decide, rfl⟩
  exact ⟨_, ⟨_, mem_layouts_flat.2 rfl, [], rfl, rfl⟩, by decide⟩

end ElmWire.Layout
