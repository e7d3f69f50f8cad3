import ElmWire.Proofs.Elm.Printing
import ElmWire.Proofs.Json.Number
import ElmWire.Proofs.Layout.Lines
import ElmWire.Proofs.Layout.Offside

/-!
# The documents of Elm code

What the printer puts together are texts, brackets that hang from where they start (`sequence`),
parts that are broken with four more columns (`spread`) and blocks behind a line break with four
more columns.  A property of documents that these constructions keep is one of all printed code, as
soon as it holds of texts; `ClosedUnderPrinting` says which constructions these are, and
`Pattern.closed`, `Expr.closed` and `TypeExpr.closed` that there are no others.  The texts are those
of the names in the code (`Expr.names` and its companions) and such as have no line break in them.

Two properties are of this kind:

* `closedUnderPrinting_hangs` — lines are indented by four columns, or hang from a bracket;
* `closedUnderPrinting_unbroken` — no text has a line break in it, if no name has.
-/

set_option autoImplicit false
namespace ElmWire.Elm

open Layout

/-! ## Names -/

mutual

/-- The names in a pattern. -/
@[simp] def Pattern.names : Pattern → List String
  | .var name => [name]
  | .ctor name arguments => name :: patternNames arguments
  | .wildcard => []

/-- The names in several patterns. -/
@[simp] def patternNames : List Pattern → List String
  | [] => []
  | pattern :: rest => pattern.names ++ patternNames rest

end

mutual

/-- The names in an expression. -/
@[simp] def Expr.names : Expr → List String
  | .var name => [name]
  | .string _ | .int _ => []
  | .app function arguments => function.names ++ exprNames arguments
  | .lambda params body => patternNames params ++ body.names
  | .list items | .tuple items => exprNames items
  | .record fields => fieldNames fields
  | .access subject field => field :: subject.names
  | .case scrutinee branches => scrutinee.names ++ branchNames branches
  | .pipe head stages => head.names ++ exprNames stages

/-- The names in several expressions. -/
@[simp] def exprNames : List Expr → List String
  | [] => []
  | e :: rest => e.names ++ exprNames rest

/-- The names in the fields of a record. -/
@[simp] def fieldNames : List (String × Expr) → List String
  | [] => []
  | (name, e) :: rest => name :: e.names ++ fieldNames rest

/-- The names in the branches of a case expression. -/
@[simp] def branchNames : List (Pattern × Expr) → List String
  | [] => []
  | (pattern, body) :: rest => pattern.names ++ body.names ++ branchNames rest

end

mutual

/-- The names in a type. -/
@[simp] def TypeExpr.names : TypeExpr → List String
  | .named name arguments => name :: typeNames arguments
  | .unit => []
  | .tuple items => typeNames items
  | .record fields => typeFieldNames fields
  | .function argument result => argument.names ++ result.names

/-- The names in several types. -/
@[simp] def typeNames : List TypeExpr → List String
  | [] => []
  | type :: rest => type.names ++ typeNames rest

/-- The names in the fields of a record type. -/
@[simp] def typeFieldNames : List (String × TypeExpr) → List String
  | [] => []
  | (name, type) :: rest => name :: type.names ++ typeFieldNames rest

end

/-- The names in a declaration. -/
def Decl.names : Decl → List String
  | .value name signature body => name :: signature.names ++ body.names
  | .alias name type => name :: type.names
  | .custom name ctors => name :: ctors.flatMap fun ctor => ctor.1 :: typeNames ctor.2

theorem patternNames_eq_flatMap (patterns : List Pattern) :
    patternNames patterns = patterns.flatMap Pattern.names := by
  induction patterns with
  | nil => rfl
  | cons pattern rest ih => rw [patternNames, ih, List.flatMap_cons]

theorem exprNames_eq_flatMap (es : List Expr) : exprNames es = es.flatMap Expr.names := by
  induction es with
  | nil => rfl
  | cons e rest ih => rw [exprNames, ih, List.flatMap_cons]

theorem fieldNames_eq_flatMap (fields : List (String × Expr)) :
    fieldNames fields = fields.flatMap fun field => field.1 :: field.2.names := by
  induction fields with
  | nil => rfl
  | cons field rest ih => rw [fieldNames, ih, List.flatMap_cons]

theorem branchNames_eq_flatMap (branches : List (Pattern × Expr)) :
    branchNames branches = branches.flatMap fun branch => branch.1.names ++ branch.2.names := by
  induction branches with
  | nil => rfl
  | cons branch rest ih => rw [branchNames, ih, List.flatMap_cons]

/-! ## Lists of documents -/

theorem exprDocs_eq_map (prec : Prec) (es : List Expr) :
    exprDocs prec es = es.map (Expr.toDoc prec) := by
  induction es with
  | nil => rw [exprDocs]; rfl
  | cons e rest ih => rw [exprDocs, ih]; rfl

theorem fieldDocs_eq_map (fields : List (String × Expr)) :
    fieldDocs fields = fields.map fun field =>
      Doc.text (field.1 ++ " = ") ++ field.2.toDoc .top := by
  induction fields with
  | nil => rw [fieldDocs]; rfl
  | cons field rest ih => rw [fieldDocs, ih]; rfl

theorem branchDocs_eq_map (branches : List (Pattern × Expr)) :
    branchDocs branches = branches.map fun branch =>
      branch.1.toDoc false ++ .text " ->" ++
        (Doc.hardline ++ branch.2.toDoc .top).nest indentation := by
  induction branches with
  | nil => rw [branchDocs]; rfl
  | cons branch rest ih => rw [branchDocs, ih]; rfl

/-! ## Printed code -/

/-- A property of documents that the printer keeps, if it holds of texts whose characters are all
`ok`. -/
structure ClosedUnderPrinting (ok : Char → Prop) (P : Doc → Prop) : Prop where
  ok_of_ne : ∀ c, c ≠ '\n' → ok c
  text : ∀ s : String, (∀ c ∈ s.toList, ok c) → P (.text s)
  nil : P .nil
  append : ∀ {a b : Doc}, P a → P b → P (a ++ b)
  sequence : ∀ (opening closing : String) {items : List Doc},
    (∀ c ∈ (opening ++ closing).toList, ok c) → (∀ d ∈ items, P d) →
    P (sequence opening items closing)
  spread : ∀ {head : Doc} {parts : List Doc}, P head → (∀ d ∈ parts, P d) → P (spread head parts)
  /-- A block, or several with blank lines between them. -/
  block : ∀ {docs : List Doc}, (∀ d ∈ docs, P d) →
    P ((Doc.hardline ++ Doc.join (Doc.hardline ++ .hardline) docs).nest indentation)

namespace ClosedUnderPrinting

variable {ok : Char → Prop} {P : Doc → Prop}

/-- A text that is given, which has no line break in it. -/
theorem fixed (h : ClosedUnderPrinting ok P) (s : String) (hs : '\n' ∉ s.toList) : P (.text s) :=
  h.text s fun c hc => h.ok_of_ne c fun heq => hs (heq ▸ hc)

/-- A name with a given text before or after it. -/
theorem around (h : ClosedUnderPrinting ok P) {s t : String} (hs : ∀ c ∈ s.toList, ok c)
    (ht : ∀ c ∈ t.toList, ok c) : P (.text (s ++ t)) := by
  refine h.text _ fun c hc => ?_
  rw [String.toList_append] at hc
  rcases List.mem_append.1 hc with hc | hc
  · exact hs c hc
  · exact ht c hc

theorem ok_of_notMem (h : ClosedUnderPrinting ok P) {s : String} (hs : '\n' ∉ s.toList) :
    ∀ c ∈ s.toList, ok c :=
  fun c hc => h.ok_of_ne c fun heq => hs (heq ▸ hc)

theorem parens (h : ClosedUnderPrinting ok P) (needed : Bool) {d : Doc} (hd : P d) :
    P (parens needed d) := by
  rw [Elm.parens]
  split
  · exact h.append (h.append (h.fixed "(" (by decide)) hd) (h.fixed ")" (by decide))
  · exact hd

theorem foldl (h : ClosedUnderPrinting ok P) {separator : Doc} (hseparator : P separator)
    {docs : List Doc} (hdocs : ∀ d ∈ docs, P d) {a : Doc} (ha : P a) :
    P (docs.foldl (fun joined d => joined ++ separator ++ d) a) := by
  induction docs generalizing a with
  | nil => exact ha
  | cons d rest ih =>
    obtain ⟨hd, hrest⟩ := List.forall_mem_cons.1 hdocs
    exact ih hrest (h.append (h.append ha hseparator) hd)

theorem concat (h : ClosedUnderPrinting ok P) {docs : List Doc} (hdocs : ∀ d ∈ docs, P d) :
    P (Doc.concat docs) := by
  have hfoldl : ∀ {a : Doc}, P a → P (docs.foldl Doc.append a) := by
    induction docs with
    | nil => exact fun ha => ha
    | cons d rest ih =>
      obtain ⟨hd, hrest⟩ := List.forall_mem_cons.1 hdocs
      exact fun ha => ih hrest (h.append ha hd)
  exact hfoldl h.nil

theorem join (h : ClosedUnderPrinting ok P) {separator : Doc} (hseparator : P separator)
    {docs : List Doc} (hdocs : ∀ d ∈ docs, P d) : P (Doc.join separator docs) := by
  cases docs with
  | nil => exact h.nil
  | cons first rest =>
    obtain ⟨hfirst, hrest⟩ := List.forall_mem_cons.1 hdocs
    exact h.foldl hseparator hrest hfirst

end ClosedUnderPrinting

theorem newline_notMem_quote (s : String) : '\n' ∉ (Json.quote s).toList := by
  have hhex : ∀ n < 32, '\n' ∉ Json.hex4 n := by decide
  have hescape : ∀ c, '\n' ∉ Json.escapeChar c := by
    intro c
    fun_cases Json.escapeChar c with
    | case8 c _ _ _ _ _ _ _ hcontrol => simpa using hhex c.toNat hcontrol
    | case9 c => simp_all [eq_comm]
    | _ => decide
  simp [Json.quote, hescape]

theorem newline_notMem_toString (n : Int) : '\n' ∉ (toString n).toList := by
  have hdigits : ∀ m : Nat, '\n' ∉ (toString m).toList :=
    fun m hmem => absurd (Json.isDigit_toString m '\n' hmem) (by decide)
  cases n with
  | ofNat m => exact hdigits m
  | negSucc m =>
    have htext : toString (Int.negSucc m) = "-" ++ toString (m + 1) := rfl
    rw [htext, String.toList_append, List.mem_append, not_or]
    exact ⟨by decide, hdigits (m + 1)⟩

section Closed

variable {ok : Char → Prop} {P : Doc → Prop}

mutual

theorem Pattern.closed (hP : ClosedUnderPrinting ok P) : ∀ (pattern : Pattern) (atomic : Bool),
    (∀ name ∈ pattern.names, ∀ c ∈ name.toList, ok c) → P (pattern.toDoc atomic)
  | .var name, _, h => by rw [Pattern.toDoc]; exact hP.text name (h name (by simp))
  | .wildcard, _, _ => by rw [Pattern.toDoc]; exact hP.fixed "_" (by decide)
  | .ctor name arguments, atomic, h => by
    obtain ⟨hname, harguments⟩ := List.forall_mem_cons.1 h
    have hdocs := patternDocs_closed hP arguments harguments
    cases arguments with
    | nil => rw [Pattern.toDoc]; exact hP.text name hname
    | cons first rest =>
      rw [Pattern.toDoc]
      · exact hP.parens atomic (hP.append (hP.text name hname) (hP.concat hdocs))
      · exact List.cons_ne_nil first rest

theorem patternDocs_closed (hP : ClosedUnderPrinting ok P) : ∀ (patterns : List Pattern),
    (∀ name ∈ patternNames patterns, ∀ c ∈ name.toList, ok c) → ∀ d ∈ patternDocs patterns, P d
  | [], _ => by rw [patternDocs]; exact List.forall_mem_nil _
  | pattern :: rest, h => by
    obtain ⟨hpattern, hrest⟩ := List.forall_mem_append.1 h
    rw [patternDocs]
    exact List.forall_mem_cons.2
      ⟨hP.append (hP.fixed " " (by decide)) (pattern.closed hP true hpattern),
        patternDocs_closed hP rest hrest⟩

end

mutual

theorem Expr.closed (hP : ClosedUnderPrinting ok P) : ∀ (e : Expr) (prec : Prec),
    (∀ name ∈ e.names, ∀ c ∈ name.toList, ok c) → P (e.toDoc prec)
  | .var name, _, h => by rw [Expr.toDoc]; exact hP.text name (h name (by simp))
  | .string s, _, _ => by rw [Expr.toDoc]; exact hP.fixed _ (newline_notMem_quote s)
  | .int n, _, _ => by rw [Expr.toDoc]; exact hP.fixed _ (newline_notMem_toString n)
  | .app function arguments, prec, h => by
    obtain ⟨hfunction, harguments⟩ := List.forall_mem_append.1 h
    rw [Expr.toDoc]
    exact hP.parens _ (hP.spread (function.closed hP .atomic hfunction)
      (exprDocs_closed hP .atomic arguments harguments))
  | .lambda params body, prec, h => by
    obtain ⟨hparams, hbody⟩ := List.forall_mem_append.1 h
    have hpatterns : P (Doc.join (.text " ") (params.map (Pattern.toDoc true))) :=
      hP.join (hP.fixed " " (by decide)) (List.forall_mem_map.2 fun pattern hpattern =>
        pattern.closed hP true fun name hname =>
          hparams name (patternNames_eq_flatMap params ▸
            List.mem_flatMap.2 ⟨pattern, hpattern, hname⟩))
    rw [Expr.toDoc]
    refine hP.parens _ (hP.spread ?_ (List.forall_mem_singleton.2 (body.closed hP .top hbody)))
    exact hP.append (hP.append (hP.fixed "\\" (by decide)) hpatterns) (hP.fixed " ->" (by decide))
  | .list items, _, h => by
    rw [Expr.toDoc]
    exact hP.sequence "[" "]" (hP.ok_of_notMem (by decide))
      (exprDocs_closed hP .top items h)
  | .tuple items, _, h => by
    rw [Expr.toDoc]
    exact hP.sequence "(" ")" (hP.ok_of_notMem (by decide))
      (exprDocs_closed hP .top items h)
  | .record fields, _, h => by
    rw [Expr.toDoc]
    exact hP.sequence "\x7b" "\x7d" (hP.ok_of_notMem (by decide))
      (fieldDocs_closed hP fields h)
  | .access subject field, _, h => by
    obtain ⟨hfield, hsubject⟩ := List.forall_mem_cons.1 h
    rw [Expr.toDoc]
    exact hP.append (subject.closed hP .atomic hsubject)
      (hP.around (hP.ok_of_notMem (by decide)) hfield)
  | .case scrutinee branches, prec, h => by
    obtain ⟨hscrutinee, hbranches⟩ := List.forall_mem_append.1 h
    have hhead := hP.append (hP.append (hP.fixed "case " (by decide))
      (scrutinee.closed hP .top hscrutinee)) (hP.fixed " of" (by decide))
    rw [Expr.toDoc]
    exact hP.parens _ (hP.append hhead (hP.block (branchDocs_closed hP branches hbranches)))
  | .pipe head stages, prec, h => by
    obtain ⟨hhead, hstages⟩ := List.forall_mem_append.1 h
    rw [Expr.toDoc]
    refine hP.parens _ (hP.spread (head.closed hP .pipe hhead) (List.forall_mem_map.2 ?_))
    exact fun d hd =>
      hP.append (hP.fixed "|> " (by decide)) (exprDocs_closed hP .pipe stages hstages d hd)

theorem exprDocs_closed (hP : ClosedUnderPrinting ok P) (prec : Prec) : ∀ (es : List Expr),
    (∀ name ∈ exprNames es, ∀ c ∈ name.toList, ok c) → ∀ d ∈ exprDocs prec es, P d
  | [], _ => by rw [exprDocs]; exact List.forall_mem_nil _
  | e :: rest, h => by
    obtain ⟨he, hrest⟩ := List.forall_mem_append.1 h
    rw [exprDocs]
    exact List.forall_mem_cons.2 ⟨e.closed hP prec he, exprDocs_closed hP prec rest hrest⟩

theorem fieldDocs_closed (hP : ClosedUnderPrinting ok P) : ∀ (fields : List (String × Expr)),
    (∀ name ∈ fieldNames fields, ∀ c ∈ name.toList, ok c) → ∀ d ∈ fieldDocs fields, P d
  | [], _ => by rw [fieldDocs]; exact List.forall_mem_nil _
  | (name, e) :: rest, h => by
    obtain ⟨hname, h⟩ := List.forall_mem_cons.1 h
    obtain ⟨he, hrest⟩ := List.forall_mem_append.1 h
    rw [fieldDocs]
    exact List.forall_mem_cons.2
      ⟨hP.append (hP.around hname (hP.ok_of_notMem (by decide))) (e.closed hP .top he),
        fieldDocs_closed hP rest hrest⟩

theorem branchDocs_closed (hP : ClosedUnderPrinting ok P) :
    ∀ (branches : List (Pattern × Expr)),
      (∀ name ∈ branchNames branches, ∀ c ∈ name.toList, ok c) → ∀ d ∈ branchDocs branches, P d
  | [], _ => by rw [branchDocs]; exact List.forall_mem_nil _
  | (pattern, body) :: rest, h => by
    obtain ⟨h, hrest⟩ := List.forall_mem_append.1 h
    obtain ⟨hpattern, hbody⟩ := List.forall_mem_append.1 h
    have hblock := hP.block (List.forall_mem_singleton.2 (body.closed hP .top hbody))
    rw [branchDocs]
    exact List.forall_mem_cons.2
      ⟨hP.append (hP.append (pattern.closed hP false hpattern) (hP.fixed " ->" (by decide)))
        hblock, branchDocs_closed hP rest hrest⟩

end

mutual

theorem TypeExpr.closed (hP : ClosedUnderPrinting ok P) : ∀ (type : TypeExpr) (prec : TypePrec),
    (∀ name ∈ type.names, ∀ c ∈ name.toList, ok c) → P (type.toDocIn prec)
  | .named name arguments, prec, h => by
    obtain ⟨hname, harguments⟩ := List.forall_mem_cons.1 h
    have hdocs := typeDocs_closed hP .argument arguments harguments
    cases arguments with
    | nil => rw [TypeExpr.toDocIn]; exact hP.text name hname
    | cons first rest =>
      rw [TypeExpr.toDocIn]
      · exact hP.parens _ (hP.spread (hP.text name hname) hdocs)
      · exact List.cons_ne_nil first rest
  | .unit, _, _ => by rw [TypeExpr.toDocIn]; exact hP.fixed "()" (by decide)
  | .tuple items, _, h => by
    rw [TypeExpr.toDocIn]
    exact hP.sequence "(" ")" (hP.ok_of_notMem (by decide))
      (typeDocs_closed hP .top items h)
  | .record fields, _, h => by
    rw [TypeExpr.toDocIn]
    exact hP.sequence "\x7b" "\x7d" (hP.ok_of_notMem (by decide))
      (typeFieldDocs_closed hP fields h)
  | .function argument result, prec, h => by
    obtain ⟨hargument, hresult⟩ := List.forall_mem_append.1 h
    rw [TypeExpr.toDocIn]
    exact hP.parens _ (hP.append (hP.append (argument.closed hP .arrow hargument)
      (hP.fixed " -> " (by decide))) (result.closed hP .top hresult))

theorem typeDocs_closed (hP : ClosedUnderPrinting ok P) (prec : TypePrec) :
    ∀ (types : List TypeExpr), (∀ name ∈ typeNames types, ∀ c ∈ name.toList, ok c) →
      ∀ d ∈ typeDocs prec types, P d
  | [], _ => by rw [typeDocs]; exact List.forall_mem_nil _
  | type :: rest, h => by
    obtain ⟨htype, hrest⟩ := List.forall_mem_append.1 h
    rw [typeDocs]
    exact List.forall_mem_cons.2 ⟨type.closed hP prec htype, typeDocs_closed hP prec rest hrest⟩

theorem typeFieldDocs_closed (hP : ClosedUnderPrinting ok P) :
    ∀ (fields : List (String × TypeExpr)),
      (∀ name ∈ typeFieldNames fields, ∀ c ∈ name.toList, ok c) → ∀ d ∈ typeFieldDocs fields, P d
  | [], _ => by rw [typeFieldDocs]; exact List.forall_mem_nil _
  | (name, type) :: rest, h => by
    obtain ⟨hname, h⟩ := List.forall_mem_cons.1 h
    obtain ⟨htype, hrest⟩ := List.forall_mem_append.1 h
    rw [typeFieldDocs]
    exact List.forall_mem_cons.2
      ⟨hP.append (hP.around hname (hP.ok_of_notMem (by decide))) (type.closed hP .top htype),
        typeFieldDocs_closed hP rest hrest⟩

end

end Closed

/-! ## The two properties -/

theorem hangs_sequence {k : Nat} (opening closing : String) {items : List Doc}
    (h : ∀ d ∈ items, d.Hangs 0) : (sequence opening items closing).Hangs k := by
  fun_cases sequence opening items closing with
  | case1 => exact .text _
  | case2 items =>
    have hitems : (Doc.join (.line ", " ", ") items).Hangs 0 := .join (.line _ _) h
    exact (((((Doc.Hangs.text _).append hitems).append (.line _ _)).append (.text _)).align).group

theorem hangs_spread {head : Doc} {parts : List Doc} (hhead : head.Hangs 4)
    (hparts : ∀ d ∈ parts, d.Hangs 0) : (spread head parts).Hangs 4 := by
  have hlines : (Doc.concat (parts.map (Doc.space ++ ·))).Hangs 0 :=
    .concat (List.forall_mem_map.2 fun d hd => (Doc.Hangs.line _ _).append (hparts d hd))
  exact (hhead.append (hlines.nest 4)).group

/-- Printed code is indented by four columns where it is broken, or hangs from a bracket. -/
theorem closedUnderPrinting_hangs : ClosedUnderPrinting (fun _ => True) (Doc.Hangs 4) where
  ok_of_ne _ _ := trivial
  text s _ := .text s
  nil := .nil
  append := .append
  sequence opening closing _ _ h :=
    hangs_sequence opening closing fun d hd => (h d hd).mono (Nat.zero_le 4)
  spread hhead hparts := hangs_spread hhead fun d hd => (hparts d hd).mono (Nat.zero_le 4)
  block h :=
    have hdocs := Doc.Hangs.join (Doc.Hangs.hardline.append .hardline) fun d hd =>
      (h d hd).mono (Nat.zero_le 4)
    (Doc.Hangs.hardline.append hdocs).nest 4

theorem unbroken_sequence (opening closing : String) {items : List Doc}
    (hopening : '\n' ∉ opening.toList) (hclosing : '\n' ∉ closing.toList)
    (h : ∀ d ∈ items, d.Unbroken) : (sequence opening items closing).Unbroken := by
  fun_cases sequence opening items closing with
  | case1 => simp [Doc.Unbroken, hopening, hclosing]
  | case2 items =>
    have hitems : (Doc.join (.line ", " ", ") items).Unbroken := .join (by simp [Doc.Unbroken]) h
    refine Doc.Unbroken.group (.align (.append (.append (.append ?_ hitems) ?_) hclosing))
    · simp [Doc.Unbroken, hopening]
    · simp [Doc.Unbroken]

/-- Printed code has no line breaks in its texts, if its names have none. -/
theorem closedUnderPrinting_unbroken : ClosedUnderPrinting (· ≠ '\n') Doc.Unbroken where
  ok_of_ne _ h := h
  text _ h := fun hmem => h _ hmem rfl
  nil := trivial
  append := .append
  sequence opening closing _ hok h :=
    unbroken_sequence opening closing (fun hmem => hok '\n' (by simp [hmem]) rfl)
      (fun hmem => hok '\n' (by simp [hmem]) rfl) h
  spread hhead hparts := by
    refine .group (.append hhead (.nest _ (.concat (List.forall_mem_map.2 fun d hd => ?_))))
    exact Doc.Unbroken.append (by simp [Doc.space, Doc.Unbroken]) (hparts d hd)
  block h :=
    have hline : Doc.hardline.Unbroken := trivial
    .nest _ (.append hline (.join (.append hline hline) h))

end ElmWire.Elm
