import ElmWire.Proofs.Elm.Reading

/-!
# Parentheses and precedences

Whether the parentheses of a printed expression are those that the precedences of Elm ask for.

* `Same a b` — expressions that differ only in how arguments and functions are gathered: applying an
  application is applying to more arguments, and sending on what was sent through functions is
  sending through more functions.
* `Expr.isReadable` — the expressions that keep their meaning: no function that a value is sent
  through is itself a pipe, fields are looked up only where that can be written, and strings have
  the escapes that they need.
* `Expr.reads_same_iff_isReadable` — **a flattened expression has at most one reading, and it is the
  expression just if that is readable**.

A pipe that is a stage of another one is printed without the parentheses that it needs
(`not_reads_same_pipe_stage`).
-/

set_option autoImplicit false
namespace ElmWire.Elm

open Layout Text OperatorGrammar

/-! ## The same expression -/

/-- The same expression, but for how arguments and stages are gathered. -/
inductive Same : Expr → Expr → Prop
  | refl (e : Expr) : Same e e
  | symm {a b : Expr} (h : Same a b) : Same b a
  | trans {a b c : Expr} (h : Same a b) (h' : Same b c) : Same a c
  | app_app (function : Expr) (first second : List Expr) :
      Same (.app (.app function first) second) (.app function (first ++ second))
  | pipe_pipe (head : Expr) (first second : List Expr) :
      Same (.pipe (.pipe head first) second) (.pipe head (first ++ second))
  | function {a b : Expr} (h : Same a b) (arguments : List Expr) :
      Same (.app a arguments) (.app b arguments)
  | argument (function : Expr) (before : List Expr) {a b : Expr} (h : Same a b)
      (after : List Expr) :
      Same (.app function (before ++ a :: after)) (.app function (before ++ b :: after))
  | body (params : List Pattern) {a b : Expr} (h : Same a b) :
      Same (.lambda params a) (.lambda params b)
  | listItem (before : List Expr) {a b : Expr} (h : Same a b) (after : List Expr) :
      Same (.list (before ++ a :: after)) (.list (before ++ b :: after))
  | tupleItem (before : List Expr) {a b : Expr} (h : Same a b) (after : List Expr) :
      Same (.tuple (before ++ a :: after)) (.tuple (before ++ b :: after))
  | entry (before : List (String × Expr)) (name : String) {a b : Expr} (h : Same a b)
      (after : List (String × Expr)) :
      Same (.record (before ++ (name, a) :: after)) (.record (before ++ (name, b) :: after))
  | subject {a b : Expr} (h : Same a b) (field : String) : Same (.access a field) (.access b field)
  | scrutinee {a b : Expr} (h : Same a b) (branches : List (Pattern × Expr)) :
      Same (.case a branches) (.case b branches)
  | branch (scrutinee : Expr) (before : List (Pattern × Expr)) (p : Pattern) {a b : Expr}
      (h : Same a b) (after : List (Pattern × Expr)) :
      Same (.case scrutinee (before ++ (p, a) :: after))
        (.case scrutinee (before ++ (p, b) :: after))
  | head {a b : Expr} (h : Same a b) (stages : List Expr) : Same (.pipe a stages) (.pipe b stages)
  | stage (head : Expr) (before : List Expr) {a b : Expr} (h : Same a b) (after : List Expr) :
      Same (.pipe head (before ++ a :: after)) (.pipe head (before ++ b :: after))

namespace Same

/-- What holds of one item at a time holds of all of them. -/
theorem all {α : Type} {R : α → α → Prop} {construct : List α → Expr}
    (hitem : ∀ before {a b : α}, R a b → ∀ after,
      Same (construct (before ++ a :: after)) (construct (before ++ b :: after)))
    {as bs : List α} (h : List.Forall₂ R as bs) : Same (construct as) (construct bs) := by
  suffices hall : ∀ before, Same (construct (before ++ as)) (construct (before ++ bs)) from hall []
  induction h with
  | nil => exact fun before => .refl _
  | @cons a b as bs hab hrest ih =>
    intro before
    have hrest := ih (before ++ [b])
    rw [List.append_assoc, List.append_assoc] at hrest
    exact (hitem before hab as).trans hrest

theorem lookUp {a b : Expr} (h : Same a b) (fields : List String) :
    Same (fields.foldl .access a) (fields.foldl .access b) := by
  induction fields generalizing a b with
  | nil => exact h
  | cons field rest ih => exact ih (h.subject field)

theorem sentThrough {a b : Expr} (h : Same a b) (stages : List Expr) :
    Same (a.sentThrough stages) (b.sentThrough stages) := by
  induction stages generalizing a b with
  | nil => exact h
  | cons stage rest ih => exact ih (h.head [stage])

/-- Sending a value through functions one by one is sending it through all of them. -/
theorem sentThrough_pipe (head : Expr) (first second : List Expr) :
    Same ((Expr.pipe head first).sentThrough second) (.pipe head (first ++ second)) := by
  induction second generalizing first with
  | nil => rw [List.append_nil]; exact .refl _
  | cons stage rest ih =>
    have hstep := (pipe_pipe head first [stage]).sentThrough rest
    have hrest := ih (first ++ [stage])
    rw [List.append_assoc] at hrest
    exact hstep.trans hrest

end Same

/-! ## Readable expressions -/

/-- Can fields be looked up in the expression by writing them behind it? -/
def Expr.takesFields : Expr → Bool
  | .var name => !isCapitalised name
  | .string _ | .int _ | .list _ | .case _ _ => false
  | _ => true

mutual

/-- The expression is printed with all parentheses that it needs. -/
def Expr.isReadable : Expr → Bool
  | .var _ | .int _ => true
  | .string s => isPlain s
  | .app function arguments => function.isReadable && areReadable arguments
  | .lambda _ body => body.isReadable
  | .list items | .tuple items => areReadable items
  | .record entries => entriesAreReadable entries
  | .access subject _ => subject.takesFields && subject.isReadable
  | .case _ _ => false
  | .pipe head stages => head.isReadable && (areReadable stages && stages.all (!·.isPipe))

/-- All expressions are readable. -/
def areReadable : List Expr → Bool
  | [] => true
  | e :: rest => e.isReadable && areReadable rest

/-- All fields of a record are readable. -/
def entriesAreReadable : List (String × Expr) → Bool
  | [] => true
  | (_, e) :: rest => e.isReadable && entriesAreReadable rest

end

theorem areReadable_append (first second : List Expr) :
    areReadable (first ++ second) = (areReadable first && areReadable second) := by
  induction first with
  | nil => rfl
  | cons e rest ih => rw [List.cons_append, areReadable, areReadable, ih, Bool.and_assoc]

theorem entriesAreReadable_append (first second : List (String × Expr)) :
    entriesAreReadable (first ++ second) =
      (entriesAreReadable first && entriesAreReadable second) := by
  induction first with
  | nil => rfl
  | cons entry rest ih =>
    rw [List.cons_append, entriesAreReadable, entriesAreReadable, ih, Bool.and_assoc]

/-- The same expressions are readable alike. -/
theorem Same.isReadable_eq {a b : Expr} (h : Same a b) :
    a.isReadable = b.isReadable ∧ a.isPipe = b.isPipe ∧ a.takesFields = b.takesFields := by
  induction h with
  | refl e => exact ⟨rfl, rfl, rfl⟩
  | symm h ih => exact ⟨ih.1.symm, ih.2.1.symm, ih.2.2.symm⟩
  | trans h h' ih ih' =>
    exact ⟨ih.1.trans ih'.1, ih.2.1.trans ih'.2.1, ih.2.2.trans ih'.2.2⟩
  | app_app function first second =>
    refine ⟨?_, rfl, rfl⟩
    rw [Expr.isReadable, Expr.isReadable, Expr.isReadable, areReadable_append, Bool.and_assoc]
  | pipe_pipe head first second =>
    refine ⟨?_, rfl, rfl⟩
    rw [Expr.isReadable, Expr.isReadable, Expr.isReadable, areReadable_append, List.all_append]
    ac_rfl
  | function h arguments ih => exact ⟨by rw [Expr.isReadable, Expr.isReadable, ih.1], rfl, rfl⟩
  | argument function before h after ih =>
    refine ⟨?_, rfl, rfl⟩
    rw [Expr.isReadable, Expr.isReadable, areReadable_append, areReadable_append, areReadable,
      areReadable, ih.1]
  | body params h ih => exact ⟨by rw [Expr.isReadable, Expr.isReadable, ih.1], rfl, rfl⟩
  | listItem before h after ih | tupleItem before h after ih =>
    refine ⟨?_, rfl, rfl⟩
    rw [Expr.isReadable, Expr.isReadable, areReadable_append, areReadable_append, areReadable,
      areReadable, ih.1]
  | entry before name h after ih =>
    refine ⟨?_, rfl, rfl⟩
    rw [Expr.isReadable, Expr.isReadable, entriesAreReadable_append, entriesAreReadable_append,
      entriesAreReadable, entriesAreReadable, ih.1]
  | subject h field ih =>
    exact ⟨by rw [Expr.isReadable, Expr.isReadable, ih.1, ih.2.2], rfl, rfl⟩
  | scrutinee h branches ih | branch scrutinee before p h after ih =>
    exact ⟨by rw [Expr.isReadable, Expr.isReadable], rfl, rfl⟩
  | head h stages ih => exact ⟨by rw [Expr.isReadable, Expr.isReadable, ih.1], rfl, rfl⟩
  | stage head before h after ih =>
    refine ⟨?_, rfl, rfl⟩
    rw [Expr.isReadable, Expr.isReadable, areReadable_append, areReadable_append, areReadable,
      areReadable, ih.1, List.all_append, List.all_append, List.all_cons, List.all_cons, ih.2.1]

/-! ## What is read is readable -/

theorem intercalate_pieces (name : String) : ".".intercalate (pieces '.' name) = name := by
  have hsplit := intercalate_split '.' name.toList
  rw [← String.toList_inj, String.toList_intercalate, pieces, List.map_map]
  simpa [Function.comp_def] using hsplit

/-- A name that is small behind its qualifiers is no constructor. -/
theorem isCapitalised_eq_false {qualifiers : List String} {name : String}
    (h : ∀ qualifier ∈ qualifiers, isCapital qualifier = true) (hname : isSmall name = true) :
    isCapitalised (".".intercalate (qualifiers ++ [name])) = false := by
  have hidentifiers : ∀ piece ∈ qualifiers ++ [name], isIdentifier piece = true := by
    refine List.forall_mem_append.2 ⟨fun piece hpiece => ?_, List.forall_mem_singleton.2 ?_⟩
    · exact isIdentifier_of_isCapital (h piece hpiece)
    · exact isIdentifier_of_isSmall hname
  rw [isCapitalised, pieces_intercalate (by simp) hidentifiers]
  simp [isCapital_of_isSmall hname]

theorem isReadable_foldl_access {e : Expr} (h : e.isReadable = true) {fields : List String}
    (hfields : fields = [] ∨ e.takesFields = true) :
    (fields.foldl Expr.access e).isReadable = true := by
  induction fields generalizing e with
  | nil => exact h
  | cons field rest ih =>
    have htakes := hfields.resolve_left (List.cons_ne_nil _ _)
    exact ih (by rw [Expr.isReadable, htakes, h]; rfl) (.inr rfl)

/-- A path is a look-up in a name that is no constructor, or it is one as a whole. -/
theorem Expr.isReadable_ofPath {path fields : List String} (h : isQualifiedName path = true)
    (hfields : fields.all isSmall = true) : (Expr.ofPath (path ++ fields)).isReadable = true := by
  have hsmall : ∀ {qualifiers : List String} {name : String} (fields : List String),
      (∀ qualifier ∈ qualifiers, isCapital qualifier = true) → isSmall name = true →
      (Expr.ofPath (qualifiers ++ name :: fields)).isReadable = true := by
    intro qualifiers name fields hqualifiers hname
    rw [Expr.ofPath_small hqualifiers hname]
    refine isReadable_foldl_access rfl (.inr ?_)
    rw [Expr.takesFields, isCapitalised_eq_false hqualifiers hname, Bool.not_false]
  rcases cases_isQualifiedName h with ⟨-, hall⟩ | ⟨qualifiers, name, rfl, hall, hname⟩
  · cases fields with
    | nil => rw [List.append_nil, Expr.ofPath_capital hall]; rfl
    | cons field rest => exact hsmall rest hall (Bool.and_eq_true_iff.1 hfields).1
  · rw [List.append_assoc, List.singleton_append]
    exact hsmall fields hall hname

theorem isReadable_sentThrough {value : Expr} {stages : List Expr} (h : value.isReadable = true)
    (hstages : ∀ e ∈ stages, e.isReadable = true ∧ e.isPipe = false) :
    (value.sentThrough stages).isReadable = true := by
  induction stages generalizing value with
  | nil => exact h
  | cons stage rest ih =>
    obtain ⟨⟨hstage, hpipe⟩, hrest⟩ := List.forall_mem_cons.1 hstages
    refine ih ?_ hrest
    simp [Expr.isReadable, areReadable, h, hstage, hpipe]

theorem takesFields_sentThrough (value : Expr) {stages : List Expr} (h : stages ≠ []) :
    (value.sentThrough stages).takesFields = true := by
  rw [← List.dropLast_append_getLast h, Expr.sentThrough_append]
  rfl

theorem isPipe_asRead {e : Expr} (h : e.isPipe = false) : (e.asRead []).isPipe = false := by
  cases e with
  | var name => rw [Expr.asRead]; exact Expr.isPipe_ofPath _
  | access subject field => rw [Expr.asRead]; exact isPipe_asRead_cons field [] subject
  | pipe head stages => cases h
  | _ => rw [Expr.asRead]; rfl

theorem Expr.links_ne_nil (e : Expr) : e.links ≠ [] := by
  fun_cases Expr.links e with
  | case1 value stage => simp
  | case2 e => simp

/-- What an expression is read as is readable, and so are its links, which are no pipes. -/
structure Expr.ReadsBack (e : Expr) : Prop where
  whole : ∀ {fields}, fields.all isSmall = true → e.isLegible fields = true →
    (e.asRead fields).isReadable = true
  links : e.isLegible [] = true →
    ∀ link ∈ (e.asRead []).links, link.isReadable = true ∧ link.isPipe = false

theorem Expr.ReadsBack.of_not_isPipe {e : Expr} (hpipe : e.isPipe = false)
    (h : ∀ {fields}, fields.all isSmall = true → e.isLegible fields = true →
      (e.asRead fields).isReadable = true) : e.ReadsBack where
  whole := h
  links hlegible := by
    rw [links_of_not_isPipe (isPipe_asRead hpipe)]
    exact List.forall_mem_singleton.2 ⟨h rfl hlegible, isPipe_asRead hpipe⟩

theorem areReadable_areRead {es : List Expr} (h : ∀ e ∈ es, e.ReadsBack)
    (hlegible : areLegible es = true) : areReadable (areRead es) = true := by
  induction es with
  | nil => rfl
  | cons e rest ih =>
    obtain ⟨he, hrest⟩ := List.forall_mem_cons.1 h
    obtain ⟨hle, hlrest⟩ := Bool.and_eq_true_iff.1 hlegible
    rw [areRead, areReadable, he.whole rfl hle, ih hrest hlrest, Bool.and_true]

theorem entriesAreReadable_fieldsAreRead {entries : List (String × Expr)}
    (h : ∀ entry ∈ entries, entry.2.ReadsBack) (hlegible : fieldsAreLegible entries = true) :
    entriesAreReadable (fieldsAreRead entries) = true := by
  induction entries with
  | nil => rfl
  | cons entry rest ih =>
    obtain ⟨he, hrest⟩ := List.forall_mem_cons.1 h
    obtain ⟨hle, hlrest⟩ := Bool.and_eq_true_iff.1 hlegible
    rw [fieldsAreRead, entriesAreReadable, he.whole rfl hle, ih hrest hlrest, Bool.and_true]

theorem linksAreRead_links {es : List Expr} (h : ∀ e ∈ es, e.ReadsBack)
    (hlegible : areLegible es = true) :
    ∀ link ∈ linksAreRead es, link.isReadable = true ∧ link.isPipe = false := by
  induction es with
  | nil => exact List.forall_mem_nil _
  | cons e rest ih =>
    obtain ⟨he, hrest⟩ := List.forall_mem_cons.1 h
    obtain ⟨hle, hlrest⟩ := Bool.and_eq_true_iff.1 hlegible
    rw [linksAreRead]
    exact List.forall_mem_append.2 ⟨he.links hle, ih hrest hlrest⟩

mutual

theorem Expr.readsBack : ∀ (e : Expr), e.isProper = true → e.ReadsBack
  | .var name, h => .of_not_isPipe rfl fun hfields _ => by
    rw [Expr.asRead]
    exact Expr.isReadable_ofPath h hfields
  | .string s, _ => .of_not_isPipe rfl fun _ hlegible => by
    rw [Expr.asRead]
    exact (Bool.and_eq_true_iff.1 hlegible).1
  | .int n, _ => .of_not_isPipe rfl fun _ _ => by rw [Expr.asRead]; rfl
  | .app function arguments, h => by
    obtain ⟨hfunction, harguments⟩ := Bool.and_eq_true_iff.1 h
    have hhead := function.readsBack hfunction
    have hparts := exprs_readBack arguments (Bool.and_eq_true_iff.1 harguments).2
    refine .of_not_isPipe rfl fun _ hlegible => ?_
    obtain ⟨hlfunction, hlarguments⟩ := Bool.and_eq_true_iff.1 hlegible
    rw [Expr.asRead]
    refine isReadable_foldl_access ?_ (.inr rfl)
    rw [Expr.isReadable, hhead.whole rfl hlfunction, areReadable_areRead hparts hlarguments]
    rfl
  | .lambda params body, h => by
    have hbody := body.readsBack (Bool.and_eq_true_iff.1 h).1
    refine .of_not_isPipe rfl fun _ hlegible => ?_
    rw [Expr.asRead]
    refine isReadable_foldl_access ?_ (.inr rfl)
    exact hbody.whole rfl hlegible
  | .list items, h => by
    have hitems := exprs_readBack items h
    refine .of_not_isPipe rfl fun _ hlegible => ?_
    rw [Expr.asRead]
    exact areReadable_areRead hitems (Bool.and_eq_true_iff.1 hlegible).1
  | .tuple items, h => by
    have hitems := exprs_readBack items (Bool.and_eq_true_iff.1 h).2
    refine .of_not_isPipe rfl fun _ hlegible => ?_
    rw [Expr.asRead]
    refine isReadable_foldl_access ?_ (.inr rfl)
    exact areReadable_areRead hitems hlegible
  | .record entries, h => by
    have hentries := entries_readBack entries h
    refine .of_not_isPipe rfl fun _ hlegible => ?_
    rw [Expr.asRead]
    refine isReadable_foldl_access ?_ (.inr rfl)
    exact entriesAreReadable_fieldsAreRead hentries hlegible
  | .access subject field, h => by
    obtain ⟨hsubject, hfield⟩ := Bool.and_eq_true_iff.1 h
    have hinner := subject.readsBack hsubject
    refine .of_not_isPipe rfl fun hfields hlegible => ?_
    rw [Expr.asRead]
    exact hinner.whole (by rw [List.all_cons, hfield, hfields]; rfl) hlegible
  | .pipe head stages, h => by
    obtain ⟨hhead, hstages⟩ := Bool.and_eq_true_iff.1 h
    obtain ⟨hne, hstages⟩ := Bool.and_eq_true_iff.1 hstages
    have hinner := head.readsBack hhead
    have hparts := exprs_readBack stages hstages
    have hlinks : linksAreRead stages ≠ [] := by
      cases stages with
      | nil => cases hne
      | cons stage rest => simp [linksAreRead, Expr.links_ne_nil]
    refine ⟨fun _ hlegible => ?_, fun hlegible => ?_⟩
    all_goals obtain ⟨hlhead, hlstages⟩ := Bool.and_eq_true_iff.1 hlegible
    · rw [Expr.asRead]
      exact isReadable_foldl_access (isReadable_sentThrough (hinner.whole rfl hlhead)
        (linksAreRead_links hparts hlstages)) (.inr (takesFields_sentThrough _ hlinks))
    · rw [Expr.asRead, List.foldl_nil, Expr.links_sentThrough]
      exact List.forall_mem_append.2 ⟨hinner.links hlhead, linksAreRead_links hparts hlstages⟩

theorem exprs_readBack : ∀ (es : List Expr), exprsAreProper es = true → ∀ e ∈ es, e.ReadsBack
  | [], _ => List.forall_mem_nil _
  | e :: rest, h => by
    obtain ⟨he, hrest⟩ := Bool.and_eq_true_iff.1 h
    exact List.forall_mem_cons.2 ⟨e.readsBack he, exprs_readBack rest hrest⟩

theorem entries_readBack : ∀ (entries : List (String × Expr)), fieldsAreProper entries = true →
    ∀ entry ∈ entries, entry.2.ReadsBack
  | [], _ => List.forall_mem_nil _
  | (name, e) :: rest, h => by
    obtain ⟨hentry, hrest⟩ := Bool.and_eq_true_iff.1 h
    exact List.forall_mem_cons.2
      ⟨e.readsBack (Bool.and_eq_true_iff.1 hentry).2, entries_readBack rest hrest⟩

end

/-! ## Readable expressions are read as themselves -/

/-- The expression is legible, and what it is read as is the same. -/
def Expr.Kept (e : Expr) : Prop :=
  ∀ fields : List String, fields = [] ∨ e.takesFields = true →
    e.isLegible fields = true ∧ Same (e.asRead fields) (fields.foldl .access e)

theorem areLegible_of_kept {es : List Expr} (h : ∀ e ∈ es, e.Kept) :
    areLegible es = true ∧ List.Forall₂ Same (areRead es) es := by
  induction es with
  | nil => exact ⟨rfl, .nil⟩
  | cons e rest ih =>
    obtain ⟨he, hrest⟩ := List.forall_mem_cons.1 h
    obtain ⟨hlegible, hsame⟩ := he [] (.inl rfl)
    obtain ⟨hlrest, hsrest⟩ := ih hrest
    exact ⟨by rw [areLegible, hlegible, hlrest]; rfl, .cons hsame hsrest⟩

theorem fieldsAreLegible_of_kept {entries : List (String × Expr)}
    (h : ∀ entry ∈ entries, entry.2.Kept) : fieldsAreLegible entries = true ∧
      List.Forall₂ (fun a b => a.1 = b.1 ∧ Same a.2 b.2) (fieldsAreRead entries) entries := by
  induction entries with
  | nil => exact ⟨rfl, .nil⟩
  | cons entry rest ih =>
    obtain ⟨he, hrest⟩ := List.forall_mem_cons.1 h
    obtain ⟨hlegible, hsame⟩ := he [] (.inl rfl)
    obtain ⟨hlrest, hsrest⟩ := ih hrest
    exact ⟨by rw [fieldsAreLegible, hlegible, hlrest]; rfl, .cons ⟨rfl, hsame⟩ hsrest⟩

/-- Functions that are no pipes are links by themselves. -/
theorem linksAreRead_eq {es : List Expr} (h : es.all (!·.isPipe) = true) :
    linksAreRead es = areRead es := by
  induction es with
  | nil => rfl
  | cons e rest ih =>
    obtain ⟨he, hrest⟩ := Bool.and_eq_true_iff.1 h
    have hpipe : e.isPipe = false := by simpa using he
    rw [linksAreRead, areRead, ih hrest, Expr.links_of_not_isPipe (isPipe_asRead hpipe)]
    rfl

theorem kept_var {name : String} (h : isQualifiedName (pieces '.' name) = true) :
    (Expr.var name).Kept := by
  intro fields hfields
  refine ⟨rfl, ?_⟩
  have hname := intercalate_pieces name
  have htakes : (Expr.var name).takesFields = !(pieces '.' name).all isCapital := rfl
  rw [Expr.asRead]
  rcases cases_isQualifiedName h with ⟨-, hall⟩ | ⟨qualifiers, last, heq, hall, hlast⟩
  · rw [htakes, List.all_eq_true.2 hall] at hfields
    obtain rfl := hfields.resolve_right Bool.false_ne_true
    rw [List.append_nil, Expr.ofPath_capital hall, hname]
    exact .refl _
  · rw [heq] at hname
    rw [heq, List.append_assoc, List.singleton_append, Expr.ofPath_small hall hlast, hname]
    exact .refl _

mutual

theorem Expr.kept : ∀ (e : Expr), e.isProper = true → e.isReadable = true → e.Kept
  | .var name, h, _ => kept_var h
  | .string s, _, hreadable => by
    intro fields hfields
    obtain rfl := hfields.resolve_right Bool.false_ne_true
    have hplain : isPlain s = true := hreadable
    exact ⟨by rw [Expr.isLegible, hplain]; rfl, by rw [Expr.asRead]; exact .refl _⟩
  | .int n, _, _ => by
    intro fields hfields
    obtain rfl := hfields.resolve_right Bool.false_ne_true
    exact ⟨rfl, by rw [Expr.asRead]; exact .refl _⟩
  | .app function arguments, h, hreadable => by
    obtain ⟨hfunction, harguments⟩ := Bool.and_eq_true_iff.1 h
    obtain ⟨hrfunction, hrarguments⟩ := Bool.and_eq_true_iff.1 hreadable
    obtain ⟨hlhead, hhead⟩ := function.kept hfunction hrfunction [] (.inl rfl)
    obtain ⟨hlparts, hparts⟩ := areLegible_of_kept
      (exprs_kept arguments (Bool.and_eq_true_iff.1 harguments).2 hrarguments)
    intro fields _
    refine ⟨by rw [Expr.isLegible, hlhead, hlparts]; rfl, ?_⟩
    rw [Expr.asRead]
    exact ((hhead.function _).trans (.all (Same.argument function) hparts)).lookUp fields
  | .lambda params body, h, hreadable => by
    obtain ⟨hlegible, hsame⟩ :=
      body.kept (Bool.and_eq_true_iff.1 h).1 hreadable [] (.inl rfl)
    intro fields _
    refine ⟨hlegible, ?_⟩
    rw [Expr.asRead]
    exact (hsame.body params).lookUp fields
  | .list items, h, hreadable => by
    obtain ⟨hlegible, hsame⟩ := areLegible_of_kept (exprs_kept items h hreadable)
    intro fields hfields
    obtain rfl := hfields.resolve_right Bool.false_ne_true
    refine ⟨by rw [Expr.isLegible, hlegible]; rfl, ?_⟩
    rw [Expr.asRead]
    exact .all Same.listItem hsame
  | .tuple items, h, hreadable => by
    obtain ⟨hlegible, hsame⟩ :=
      areLegible_of_kept (exprs_kept items (Bool.and_eq_true_iff.1 h).2 hreadable)
    intro fields _
    refine ⟨hlegible, ?_⟩
    rw [Expr.asRead]
    exact (Same.all Same.tupleItem hsame).lookUp fields
  | .record entries, h, hreadable => by
    obtain ⟨hlegible, hsame⟩ := fieldsAreLegible_of_kept (entries_kept entries h hreadable)
    intro fields _
    refine ⟨hlegible, ?_⟩
    rw [Expr.asRead]
    refine (Same.all (fun before a b hab after => ?_) hsame).lookUp fields
    obtain ⟨name, a⟩ := a
    obtain ⟨name', b⟩ := b
    obtain ⟨rfl, hab⟩ := hab
    exact .entry before name hab after
  | .access subject field, h, hreadable => by
    obtain ⟨htakes, hsubject⟩ := Bool.and_eq_true_iff.1 hreadable
    have hinner := subject.kept (Bool.and_eq_true_iff.1 h).1 hsubject
    intro fields _
    obtain ⟨hlegible, hsame⟩ := hinner (field :: fields) (.inr htakes)
    exact ⟨hlegible, by rw [Expr.asRead]; exact hsame⟩
  | .pipe head stages, h, hreadable => by
    obtain ⟨hhead, hstages⟩ := Bool.and_eq_true_iff.1 h
    obtain ⟨hne, hstages⟩ := Bool.and_eq_true_iff.1 hstages
    obtain ⟨hrhead, hrstages⟩ := Bool.and_eq_true_iff.1 hreadable
    obtain ⟨hrstages, hpipes⟩ := Bool.and_eq_true_iff.1 hrstages
    obtain ⟨hlhead, hshead⟩ := head.kept hhead hrhead [] (.inl rfl)
    obtain ⟨hlparts, hparts⟩ := areLegible_of_kept (exprs_kept stages hstages hrstages)
    have hgathered : Same ((head.asRead []).sentThrough (areRead stages))
        (.pipe (head.asRead []) (areRead stages)) := by
      cases stages with
      | nil => cases hne
      | cons stage rest => exact Same.sentThrough_pipe (head.asRead []) [stage.asRead []] _
    intro fields _
    refine ⟨by rw [Expr.isLegible, hlhead, hlparts]; rfl, ?_⟩
    rw [Expr.asRead, linksAreRead_eq hpipes]
    exact (hgathered.trans ((hshead.head _).trans (.all (Same.stage head) hparts))).lookUp fields

theorem exprs_kept : ∀ (es : List Expr), exprsAreProper es = true → areReadable es = true →
    ∀ e ∈ es, e.Kept
  | [], _, _ => List.forall_mem_nil _
  | e :: rest, h, hreadable => by
    obtain ⟨he, hrest⟩ := Bool.and_eq_true_iff.1 h
    obtain ⟨hre, hrrest⟩ := Bool.and_eq_true_iff.1 hreadable
    exact List.forall_mem_cons.2 ⟨e.kept he hre, exprs_kept rest hrest hrrest⟩

theorem entries_kept : ∀ (entries : List (String × Expr)), fieldsAreProper entries = true →
    entriesAreReadable entries = true → ∀ entry ∈ entries, entry.2.Kept
  | [], _, _ => List.forall_mem_nil _
  | (name, e) :: rest, h, hreadable => by
    obtain ⟨hentry, hrest⟩ := Bool.and_eq_true_iff.1 h
    obtain ⟨hre, hrrest⟩ := Bool.and_eq_true_iff.1 hreadable
    exact List.forall_mem_cons.2
      ⟨e.kept (Bool.and_eq_true_iff.1 hentry).2 hre, entries_kept rest hrest hrrest⟩

end

/-! ## Flattened expressions -/

/-- The text of a proper expression says the expression just if that is readable. -/
theorem exists_reads_same_iff {e : Expr} (h : e.isProper = true) :
    (∃ r, Reads (e.toDoc .top).oneLine r ∧ Same r e) ↔ e.isReadable = true := by
  constructor
  · rintro ⟨r, hreads, hsame⟩
    cases hlegible : e.isLegible [] with
    | false => exact absurd hreads (not_reads_of_illegible h hlegible r)
    | true =>
      -- What is read is `e.asRead []`, which is readable, and so is all that is the same.
      obtain rfl := (e.reads_asRead h hlegible).unique hreads
      rw [← hsame.isReadable_eq.1]
      exact (e.readsBack h).whole rfl hlegible
  · intro hreadable
    obtain ⟨hlegible, hsame⟩ := e.kept h hreadable [] (.inl rfl)
    exact ⟨e.asRead [], e.reads_asRead h hlegible, hsame⟩

/-- **Parentheses and precedences.**  The text of a flattened proper expression has at most one
reading, and the reading is the expression, but for how arguments and stages are gathered, just if
the expression is readable. -/
theorem Expr.reads_same_iff_isReadable {e : Expr} (h : e.isProper = true) (width : Nat) :
    (∀ r r', Reads (render width (.flatten (e.toDoc .top))) r →
      Reads (render width (.flatten (e.toDoc .top))) r' → r' = r) ∧
    ((∃ r, Reads (render width (.flatten (e.toDoc .top))) r ∧ Same r e) ↔ e.isReadable = true) := by
  rw [Expr.render_flatten h .top width]
  exact ⟨fun r r' => Reads.unique, exists_reads_same_iff h⟩

/-- A field of what a function gives, sent through two functions.  One is applied to a pipe, and the
other is written out. -/
def relayed : Expr :=
  .pipe (.access (.app (.lambda [.var "x"] (.var "x")) [.app (.var "f") [.int 1]]) "name")
    [.app (.app (.var "List.map") [.pipe (.var "a") [.var "b"]]) [.string "\n"],
      .lambda [.ctor "Just" [.wildcard]] (.record [("y", .tuple [.list [], .var "Nothing"])])]

theorem reads_same_relayed : relayed.isProper = true ∧
    ∃ r, Reads (render 80 (.flatten (relayed.toDoc .top))) r ∧ Same r relayed := by
  have hproper : relayed.isProper = true := by decide +kernel
  exact ⟨hproper, (Expr.reads_same_iff_isReadable hproper 80).2.2 (by decide +kernel)⟩

/-- A value sent through a function that is itself made by sending a value through a function. -/
def pipeInPipe : Expr := .pipe (.var "h") [.pipe (.var "a") [.var "b"]]

/-- A pipe that is a stage of another one loses its parentheses, and with them its meaning. -/
theorem not_reads_same_pipe_stage : pipeInPipe.isProper = true ∧
    render 80 (.flatten (pipeInPipe.toDoc .top)) = "h |> a |> b" ∧
    ¬∃ r, Reads (render 80 (.flatten (pipeInPipe.toDoc .top))) r ∧ Same r pipeInPipe := by
  have hproper : pipeInPipe.isProper = true := by decide +kernel
  have hreadable : pipeInPipe.isReadable = false := by decide +kernel
  rw [Expr.render_flatten hproper .top 80]
  refine ⟨hproper, by decide +kernel, ?_⟩
  rw [exists_reads_same_iff hproper, hreadable]
  exact Bool.false_ne_true

end ElmWire.Elm
