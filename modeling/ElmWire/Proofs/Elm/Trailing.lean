import ElmWire.Proofs.Elm.Naming
import ElmWire.Proofs.Elm.Offside
import ElmWire.Proofs.Layout.Trailing

/-!
# No blanks at the ends of lines

The texts that the printer puts between the parts of a construction end in blanks.  They never come
in front of a line break, because a part that follows them starts with a text of its own, however it
is broken: patterns, expressions and types may stand behind a blank and leave none behind
(`Doc.Leads true false`), if the names in them are words.

The names in generated code are words if those in the schema are.  So **generated code has no blanks
at the ends of its lines, on any page** (`endsBlank_of_mem_lines_schema`).
-/

set_option autoImplicit false
namespace ElmWire

namespace Text

theorem IsWord.endsBlank {s : String} (h : IsWord s) : endsBlank s = false := by
  rw [Text.endsBlank]
  cases hlast : s.toList.getLast? with
  | none => rfl
  | some c => exact h.2 c (List.mem_of_getLast? hlast)

theorem IsWord.append {s t : String} (hs : IsWord s) (ht : IsWord t) : IsWord (s ++ t) := by
  refine ⟨by simp [hs.1], fun c hc => ?_⟩
  rw [String.toList_append, List.mem_append] at hc
  exact hc.elim (hs.2 c) (ht.2 c)

end Text

namespace Elm

open Layout

/-! ## Constructions of the printer -/

theorem leads_word {before : Bool} {s : String} (h : Text.IsWord s) :
    (Doc.text s).Leads before false := .text h.1 h.endsBlank

theorem leads_parens (needed : Bool) {d : Doc} (h : d.Leads true false) :
    (parens needed d).Leads true false := by
  rw [parens]
  split
  · exact ((Doc.Leads.anyText "(").append h).append (leads_word (by decide))
  · exact h

theorem leads_sequence (opening : String) {closing : String} (hclosing : Text.IsWord closing)
    {items : List Doc} (h : ∀ d ∈ items, d.Leads true false) :
    (sequence opening items closing).Leads true false := by
  fun_cases sequence opening items closing with
  | case1 =>
    refine .text ?_ ((Text.endsBlank_append hclosing.1).trans hclosing.endsBlank)
    simp [hclosing.1]
  | case2 items hne =>
    have hitems : (Doc.join (.line ", " ", ") items).Leads true false := .join (.line _ _) hne h
    exact (((((Doc.Leads.anyText _).append hitems).append (.line _ _)).append
      (leads_word hclosing)).align).group

theorem leads_spread {head : Doc} {parts : List Doc} (hhead : head.Leads true false)
    (hparts : ∀ d ∈ parts, d.Leads true false) : (spread head parts).Leads true false := by
  have hlines : (Doc.concat (parts.map (Doc.space ++ ·))).Leads false false :=
    .concat (List.forall_mem_map.2 fun d hd => (Doc.Leads.line _ _).append (hparts d hd))
  exact (hhead.append (hlines.nest indentation)).group

/-- Documents in a block, with blank lines between them. -/
theorem leads_block {docs : List Doc} (h : ∀ d ∈ docs, d.Leads true false) :
    ((Doc.hardline ++ Doc.join (Doc.hardline ++ .hardline) docs).nest indentation).Leads
      false false := by
  refine .nest _ (Doc.Leads.hardline.append ?_)
  cases docs with
  | nil => exact .nil
  | cons first rest =>
    refine .join (Doc.Leads.hardline.append .hardline) (List.cons_ne_nil first rest) ?_
    exact fun d hd => (h d hd).mono (Bool.false_le _) (Bool.le_refl _)

/-! ## Patterns, expressions and types -/

mutual

theorem Pattern.leads : ∀ (pattern : Pattern) (atomic : Bool),
    (∀ name ∈ pattern.names, Text.IsWord name) → (pattern.toDoc atomic).Leads true false
  | .var name, _, h => by rw [Pattern.toDoc]; exact leads_word (h name (by simp))
  | .wildcard, _, _ => by rw [Pattern.toDoc]; exact leads_word (by decide)
  | .ctor name arguments, atomic, h => by
    obtain ⟨hname, harguments⟩ := List.forall_mem_cons.1 h
    have hdocs := patternDocs_leads arguments harguments
    cases arguments with
    | nil => rw [Pattern.toDoc]; exact leads_word hname
    | cons first rest =>
      rw [Pattern.toDoc]
      · exact leads_parens atomic ((leads_word hname).append (.concat hdocs))
      · exact List.cons_ne_nil first rest

theorem patternDocs_leads : ∀ (patterns : List Pattern),
    (∀ name ∈ patternNames patterns, Text.IsWord name) →
      ∀ d ∈ patternDocs patterns, d.Leads false false
  | [], _ => by rw [patternDocs]; exact List.forall_mem_nil _
  | pattern :: rest, h => by
    obtain ⟨hpattern, hrest⟩ := List.forall_mem_append.1 h
    rw [patternDocs]
    exact List.forall_mem_cons.2
      ⟨(Doc.Leads.anyText " ").append (pattern.leads true hpattern), patternDocs_leads rest hrest⟩

end

theorem endsBlank_quote (s : String) : Text.endsBlank (Json.quote s) = false := by
  rw [Text.endsBlank, Json.quote, String.toList_ofList, List.getLast?_append]
  rfl

theorem isWhitespace_of_isDigit {c : Char} (h : c.isDigit = true) : c.isWhitespace = false := by
  by_contra hblank
  simp only [Char.isWhitespace, Bool.not_eq_false, Bool.or_eq_true, decide_eq_true_eq] at hblank
  rcases hblank with ((rfl | rfl) | rfl) | rfl <;> exact absurd h (by decide)

theorem isWord_toString (n : Int) : Text.IsWord (toString n) := by
  have hdigits : ∀ m : Nat, ∀ c ∈ (toString m).toList, c.isWhitespace = false :=
    fun m c hc => isWhitespace_of_isDigit (Json.isDigit_toString m c hc)
  cases n with
  | ofNat m => exact ⟨Nat.repr_ne_empty, hdigits m⟩
  | negSucc m =>
    have htext : toString (Int.negSucc m) = "-" ++ toString (m + 1) := rfl
    have hminus : Text.IsWord "-" := by decide
    rw [htext]
    exact hminus.append ⟨Nat.repr_ne_empty, hdigits (m + 1)⟩

mutual

theorem Expr.leads : ∀ (e : Expr) (prec : Prec),
    (∀ name ∈ e.names, Text.IsWord name) → (e.toDoc prec).Leads true false
  | .var name, _, h => by rw [Expr.toDoc]; exact leads_word (h name (by simp))
  | .string s, _, _ => by
    rw [Expr.toDoc]
    exact .text (by simp [Json.quote]) (endsBlank_quote s)
  | .int n, _, _ => by rw [Expr.toDoc]; exact leads_word (isWord_toString n)
  | .app function arguments, prec, h => by
    obtain ⟨hfunction, harguments⟩ := List.forall_mem_append.1 h
    rw [Expr.toDoc]
    exact leads_parens _ (leads_spread (function.leads .atomic hfunction)
      (exprDocs_leads .atomic arguments harguments))
  | .lambda params body, prec, h => by
    obtain ⟨hparams, hbody⟩ := List.forall_mem_append.1 h
    rw [patternNames_eq_flatMap] at hparams
    have hjoin : (Doc.join (.text " ") (params.map (Pattern.toDoc true))).Leads true true := by
      by_cases hne : params = []
      · subst hne
        exact .nil
      · refine (Doc.Leads.join (.anyText " ") (by simpa using hne) ?_).mono
          (Bool.le_refl _) (Bool.false_le _)
        exact List.forall_mem_map.2 fun pattern hmem => pattern.leads true fun name hname =>
          hparams name (List.mem_flatMap.2 ⟨pattern, hmem, hname⟩)
    rw [Expr.toDoc]
    refine leads_parens _ (leads_spread (((Doc.Leads.anyText "\\").append hjoin).append ?_) ?_)
    · exact .text (by decide) (by decide)
    · exact List.forall_mem_singleton.2 (body.leads .top hbody)
  | .list items, _, h => by
    rw [Expr.toDoc]
    exact leads_sequence "[" (by decide) (exprDocs_leads .top items h)
  | .tuple items, _, h => by
    rw [Expr.toDoc]
    exact leads_sequence "(" (by decide) (exprDocs_leads .top items h)
  | .record fields, _, h => by
    rw [Expr.toDoc]
    exact leads_sequence "\x7b" (by decide) (fieldDocs_leads fields h)
  | .access subject field, _, h => by
    obtain ⟨hfield, hsubject⟩ := List.forall_mem_cons.1 h
    rw [Expr.toDoc]
    refine (subject.leads .atomic hsubject).append (.text (by simp) ?_)
    rw [Text.endsBlank_append hfield.1, hfield.endsBlank]
  | .case scrutinee branches, prec, h => by
    obtain ⟨hscrutinee, hbranches⟩ := List.forall_mem_append.1 h
    rw [Expr.toDoc]
    refine leads_parens _ ((((Doc.Leads.anyText "case ").append
      (scrutinee.leads .top hscrutinee)).append ?_).append
      (leads_block (branchDocs_leads branches hbranches)))
    exact .text (by decide) (by decide)
  | .pipe head stages, prec, h => by
    obtain ⟨hhead, hstages⟩ := List.forall_mem_append.1 h
    rw [Expr.toDoc]
    refine leads_parens _ (leads_spread (head.leads .pipe hhead) ?_)
    exact List.forall_mem_map.2 fun d hd =>
      (Doc.Leads.anyText "|> ").append (exprDocs_leads .pipe stages hstages d hd)

theorem exprDocs_leads (prec : Prec) : ∀ (es : List Expr),
    (∀ name ∈ exprNames es, Text.IsWord name) → ∀ d ∈ exprDocs prec es, d.Leads true false
  | [], _ => by rw [exprDocs]; exact List.forall_mem_nil _
  | e :: rest, h => by
    obtain ⟨he, hrest⟩ := List.forall_mem_append.1 h
    rw [exprDocs]
    exact List.forall_mem_cons.2 ⟨e.leads prec he, exprDocs_leads prec rest hrest⟩

theorem fieldDocs_leads : ∀ (fields : List (String × Expr)),
    (∀ name ∈ fieldNames fields, Text.IsWord name) → ∀ d ∈ fieldDocs fields, d.Leads true false
  | [], _ => by rw [fieldDocs]; exact List.forall_mem_nil _
  | (name, e) :: rest, h => by
    obtain ⟨-, h⟩ := List.forall_mem_cons.1 h
    obtain ⟨he, hrest⟩ := List.forall_mem_append.1 h
    rw [fieldDocs]
    exact List.forall_mem_cons.2
      ⟨(Doc.Leads.anyText _).append (e.leads .top he), fieldDocs_leads rest hrest⟩

theorem branchDocs_leads : ∀ (branches : List (Pattern × Expr)),
    (∀ name ∈ branchNames branches, Text.IsWord name) →
      ∀ d ∈ branchDocs branches, d.Leads true false
  | [], _ => by rw [branchDocs]; exact List.forall_mem_nil _
  | (pattern, body) :: rest, h => by
    obtain ⟨h, hrest⟩ := List.forall_mem_append.1 h
    obtain ⟨hpattern, hbody⟩ := List.forall_mem_append.1 h
    have hblock := leads_block (List.forall_mem_singleton.2 (body.leads .top hbody))
    rw [branchDocs]
    refine List.forall_mem_cons.2
      ⟨((pattern.leads false hpattern).append ?_).append hblock, branchDocs_leads rest hrest⟩
    exact .text (by decide) (by decide)

end

mutual

theorem TypeExpr.leads : ∀ (type : TypeExpr) (prec : TypePrec),
    (∀ name ∈ type.names, Text.IsWord name) → (type.toDocIn prec).Leads true false
  | .named name arguments, prec, h => by
    obtain ⟨hname, harguments⟩ := List.forall_mem_cons.1 h
    have hdocs := typeDocs_leads .argument arguments harguments
    cases arguments with
    | nil => rw [TypeExpr.toDocIn]; exact leads_word hname
    | cons first rest =>
      rw [TypeExpr.toDocIn]
      · exact leads_parens _ (leads_spread (leads_word hname) hdocs)
      · exact List.cons_ne_nil first rest
  | .unit, _, _ => by rw [TypeExpr.toDocIn]; exact leads_word (by decide)
  | .tuple items, _, h => by
    rw [TypeExpr.toDocIn]
    exact leads_sequence "(" (by decide) (typeDocs_leads .top items h)
  | .record fields, _, h => by
    rw [TypeExpr.toDocIn]
    exact leads_sequence "\x7b" (by decide) (typeFieldDocs_leads fields h)
  | .function argument result, prec, h => by
    obtain ⟨hargument, hresult⟩ := List.forall_mem_append.1 h
    rw [TypeExpr.toDocIn]
    exact leads_parens _ (((argument.leads .arrow hargument).append (.anyText " -> ")).append
      (result.leads .top hresult))

theorem typeDocs_leads (prec : TypePrec) : ∀ (types : List TypeExpr),
    (∀ name ∈ typeNames types, Text.IsWord name) → ∀ d ∈ typeDocs prec types, d.Leads true false
  | [], _ => by rw [typeDocs]; exact List.forall_mem_nil _
  | type :: rest, h => by
    obtain ⟨htype, hrest⟩ := List.forall_mem_append.1 h
    rw [typeDocs]
    exact List.forall_mem_cons.2 ⟨type.leads prec htype, typeDocs_leads prec rest hrest⟩

theorem typeFieldDocs_leads : ∀ (fields : List (String × TypeExpr)),
    (∀ name ∈ typeFieldNames fields, Text.IsWord name) →
      ∀ d ∈ typeFieldDocs fields, d.Leads true false
  | [], _ => by rw [typeFieldDocs]; exact List.forall_mem_nil _
  | (name, type) :: rest, h => by
    obtain ⟨-, h⟩ := List.forall_mem_cons.1 h
    obtain ⟨htype, hrest⟩ := List.forall_mem_append.1 h
    rw [typeFieldDocs]
    exact List.forall_mem_cons.2
      ⟨(Doc.Leads.anyText _).append (type.leads .top htype), typeFieldDocs_leads rest hrest⟩

end

/-! ## Declarations -/

theorem leads_ctorDocs {ctors : List (String × List TypeExpr)}
    (h : ∀ ctor ∈ ctors, ∀ name ∈ ctor.1 :: typeNames ctor.2, Text.IsWord name) :
    ∀ d ∈ ctorDocs ctors, d.Leads false false := by
  have hctor : ∀ lead, ∀ ctor ∈ ctors, (ctorDoc lead ctor).Leads false false := by
    intro lead ctor hmem
    obtain ⟨hname, hnames⟩ := List.forall_mem_cons.1 (h ctor hmem)
    refine ((Doc.Leads.hardline.append (.anyText lead)).append (leads_word hname)).append ?_
    exact .concat (List.forall_mem_map.2 fun d hd =>
      (Doc.Leads.anyText " ").append (typeDocs_leads .argument ctor.2 hnames d hd))
  cases ctors with
  | nil => exact List.forall_mem_nil _
  | cons first rest =>
    refine List.forall_mem_cons.2 ⟨hctor "= " first List.mem_cons_self, ?_⟩
    exact List.forall_mem_map.2 fun ctor hmem =>
      hctor "| " ctor (List.mem_cons_of_mem _ hmem)

theorem Decl.leads {decl : Decl} (h : ∀ name ∈ decl.names, Text.IsWord name) :
    decl.toDoc.Leads true false := by
  have hblock : ∀ {d : Doc}, d.Leads true false →
      ((Doc.hardline ++ d).nest indentation).Leads false false :=
    fun hd => leads_block (List.forall_mem_singleton.2 hd)
  cases decl with
  | value name signature body =>
    obtain ⟨hname, h⟩ := List.forall_mem_cons.1 h
    obtain ⟨hsignature, hbody⟩ := List.forall_mem_append.1 h
    refine (((((Doc.Leads.anyText _).append (signature.leads .top hsignature)).append
      .hardline).append (.text ?_ ?_)).append (hblock (body.leads .top hbody)))
    · simp
    · exact (Text.endsBlank_append (by decide)).trans (by decide)
  | «alias» name type =>
    obtain ⟨hname, h⟩ := List.forall_mem_cons.1 h
    refine Doc.Leads.append (.text ?_ ?_) (hblock (type.leads .top h))
    · simp
    · exact (Text.endsBlank_append (by decide)).trans (by decide)
  | custom name ctors =>
    obtain ⟨hname, h⟩ := List.forall_mem_cons.1 h
    have hctors := leads_ctorDocs fun ctor hctor name hname =>
      h name (List.mem_flatMap.2 ⟨ctor, hctor, hname⟩)
    refine Doc.Leads.append (.text ?_ ?_) (.nest _ (.concat hctors))
    · simp
    · exact (Text.endsBlank_append hname.1).trans hname.endsBlank

/-- **Declarations have no blanks at the ends of their lines**, if the names in them are words. -/
theorem endsBlank_of_mem_lines_renderDecls {decls : List Decl}
    (h : ∀ decl ∈ decls, ∀ name ∈ decl.names, Text.IsWord name) (width : Nat) :
    ∀ line ∈ Text.lines (renderDecls width decls), Text.endsBlank line = false := by
  rw [renderDecls]
  refine Text.forall_mem_lines_intercalate (P := (Text.endsBlank · = false)) rfl
    (List.forall_mem_map.2 fun decl hdecl => ?_)
  have hwords := h decl hdecl
  rw [render_eq_written]
  exact endsBlank_of_mem_lines_written (Decl.unbroken hwords) (Decl.leads hwords)
    (toList_best_mem_layouts width _)

/-! ## Schemas -/

/-- Names that are made up for generated code are words, given that those in the schema are. -/
theorem coined_isWord : Coined Text.IsWord where
  library := by decide +kernel
  isLocal := by
    rintro _ ⟨stem, hstem, i, rfl⟩
    have hstems : ∀ stem ∈ ["value", "arg", "field"], Text.IsWord stem := by decide
    exact (hstems stem hstem).append (isWord_toString i)
  encoderName h := Text.IsWord.append (by decide) h
  decoderName h := Text.IsWord.append (by decide) h

/-- **Generated code has no blanks at the ends of its lines, on any page**: neither the types nor
the codecs, if all names in the schema are words. -/
theorem endsBlank_of_mem_lines_schema {schema : Schema}
    (h : ∀ d ∈ schema.defs, ∀ name ∈ d.words, Text.IsWord name) (width : Nat) :
    ∀ line ∈ Text.lines (renderTypes width schema) ++ Text.lines (renderCodecs width schema),
      Text.endsBlank line = false := by
  refine List.forall_mem_append.2 ⟨?_, ?_⟩
  · refine endsBlank_of_mem_lines_renderDecls (List.forall_mem_map.2 fun d hd => ?_) width
    exact named_toElm coined_isWord (h d hd)
  · refine endsBlank_of_mem_lines_renderDecls (List.forall_mem_flatMap.2 fun d hd => ?_) width
    exact named_codecs coined_isWord (h d hd)

/-- Shapes, and a type without constructors, for which a case expression has no branches. -/
def shapesSchema : Schema :=
  ⟨[.custom "Shape" [⟨"Circle", [.float]⟩, ⟨"Label", [.record [("text", .string), ("at", .int)]]⟩],
    .custom "Never" []]⟩

theorem endsBlank_of_mem_lines_shapes :
    (∀ d ∈ shapesSchema.defs, ∀ name ∈ d.words, Text.IsWord name) ∧
    ∀ line ∈ Text.lines (renderTypes 20 shapesSchema) ++ Text.lines (renderCodecs 20 shapesSchema),
      Text.endsBlank line = false :=
  have hwords : ∀ d ∈ shapesSchema.defs, ∀ name ∈ d.words, Text.IsWord name := by decide
  ⟨hwords, endsBlank_of_mem_lines_schema hwords 20⟩

end Elm
end ElmWire
