import ElmWire.Elm.Codec
import ElmWire.Proofs.Layout.OneLine

/-!
# Elm code up to blanks

The documents of Elm code have three kinds of line breaks: those that are a space when flat, those
between the items of brackets, which are `", "` in either form, and those that are always there.
All of them are uniform (`ElmWire.Proofs.Layout.OneLine`), and so is what the printer makes of them:
patterns, expressions, types and declarations.  **Elm code is the same up to blanks on every page**
(`renderDecls_width`).
-/

set_option autoImplicit false
namespace ElmWire.Elm

open Layout

/-! ## Constructions of the printer -/

theorem uniform_parens (needed : Bool) {d : Doc} (h : d.Uniform) : (parens needed d).Uniform := by
  rw [parens]
  split
  · exact .surround "(" ")" h
  · exact h

theorem uniform_sequence (opening closing : String) {items : List Doc}
    (h : ∀ d ∈ items, d.Uniform) : (sequence opening items closing).Uniform := by
  fun_cases sequence opening items closing with
  | case1 => exact .text _
  | case2 items =>
    have hitems : (Doc.join (.line ", " ", ") items).Uniform := .join .comma h
    exact (((((Doc.Uniform.text _).append hitems).append .space).append (.text _)).align).group

theorem uniform_spread {head : Doc} {parts : List Doc} (hhead : head.Uniform)
    (hparts : ∀ d ∈ parts, d.Uniform) : (spread head parts).Uniform := by
  have hlines : (Doc.concat (parts.map (Doc.space ++ ·))).Uniform :=
    .concat (List.forall_mem_map.2 fun d hd => Doc.Uniform.space.append (hparts d hd))
  exact (hhead.append (hlines.nest indentation)).group

/-! ## Patterns, expressions and types -/

mutual

theorem Pattern.uniform : ∀ (pattern : Pattern) (atomic : Bool), (pattern.toDoc atomic).Uniform
  | .var name, _ => by rw [Pattern.toDoc]; exact .text name
  | .wildcard, _ => by rw [Pattern.toDoc]; exact .text "_"
  | .ctor name arguments, atomic => by
    have harguments := patternDocs_uniform arguments
    cases arguments with
    | nil => rw [Pattern.toDoc]; exact .text name
    | cons first rest =>
      rw [Pattern.toDoc]
      · exact uniform_parens atomic ((Doc.Uniform.text name).append (.concat harguments))
      · exact List.cons_ne_nil first rest

theorem patternDocs_uniform : ∀ (patterns : List Pattern), ∀ d ∈ patternDocs patterns, d.Uniform
  | [] => by rw [patternDocs]; exact List.forall_mem_nil _
  | pattern :: rest => by
    rw [patternDocs]
    exact List.forall_mem_cons.2
      ⟨(Doc.Uniform.text " ").append (pattern.uniform true), patternDocs_uniform rest⟩

end

mutual

theorem Expr.uniform : ∀ (e : Expr) (prec : Prec), (e.toDoc prec).Uniform
  | .var name, _ => by rw [Expr.toDoc]; exact .text name
  | .string s, _ => by rw [Expr.toDoc]; exact .text _
  | .int n, _ => by rw [Expr.toDoc]; exact .text _
  | .app function arguments, prec => by
    rw [Expr.toDoc]
    exact uniform_parens _
      (uniform_spread (function.uniform .atomic) (exprDocs_uniform .atomic arguments))
  | .lambda params body, prec => by
    have hparams : (Doc.join (.text " ") (params.map (Pattern.toDoc true))).Uniform :=
      .join (.text " ") (List.forall_mem_map.2 fun pattern _ => pattern.uniform true)
    rw [Expr.toDoc]
    refine uniform_parens _ (uniform_spread ?_ ?_)
    · exact ((Doc.Uniform.text "\\").append hparams).append (.text " ->")
    · exact List.forall_mem_singleton.2 (body.uniform .top)
  | .list items, _ => by
    rw [Expr.toDoc]; exact uniform_sequence _ _ (exprDocs_uniform .top items)
  | .tuple items, _ => by
    rw [Expr.toDoc]; exact uniform_sequence _ _ (exprDocs_uniform .top items)
  | .record fields, _ => by
    rw [Expr.toDoc]; exact uniform_sequence _ _ (fieldDocs_uniform fields)
  | .access subject field, _ => by
    rw [Expr.toDoc]; exact (subject.uniform .atomic).append (.text _)
  | .case scrutinee branches, prec => by
    have hbranches : (Doc.join (Doc.hardline ++ .hardline) (branchDocs branches)).Uniform :=
      .join (Doc.Uniform.hardline.append .hardline) (branchDocs_uniform branches)
    rw [Expr.toDoc]
    refine uniform_parens _ (.append (.append ?_ (.text " of")) ?_)
    · exact (Doc.Uniform.text "case ").append (scrutinee.uniform .top)
    · exact .nest indentation (Doc.Uniform.hardline.append hbranches)
  | .pipe head stages, prec => by
    rw [Expr.toDoc]
    refine uniform_parens _ (uniform_spread (head.uniform .pipe) (List.forall_mem_map.2 ?_))
    exact fun d hd => (Doc.Uniform.text "|> ").append (exprDocs_uniform .pipe stages d hd)

theorem exprDocs_uniform (prec : Prec) : ∀ (es : List Expr), ∀ d ∈ exprDocs prec es, d.Uniform
  | [] => by rw [exprDocs]; exact List.forall_mem_nil _
  | e :: rest => by
    rw [exprDocs]
    exact List.forall_mem_cons.2 ⟨e.uniform prec, exprDocs_uniform prec rest⟩

theorem fieldDocs_uniform : ∀ (fields : List (String × Expr)), ∀ d ∈ fieldDocs fields, d.Uniform
  | [] => by rw [fieldDocs]; exact List.forall_mem_nil _
  | (name, e) :: rest => by
    rw [fieldDocs]
    exact List.forall_mem_cons.2
      ⟨(Doc.Uniform.text _).append (e.uniform .top), fieldDocs_uniform rest⟩

theorem branchDocs_uniform :
    ∀ (branches : List (Pattern × Expr)), ∀ d ∈ branchDocs branches, d.Uniform
  | [] => by rw [branchDocs]; exact List.forall_mem_nil _
  | (pattern, body) :: rest => by
    have hbody : ((Doc.hardline ++ body.toDoc .top).nest indentation).Uniform :=
      .nest indentation (Doc.Uniform.hardline.append (body.uniform .top))
    rw [branchDocs]
    exact List.forall_mem_cons.2
      ⟨((pattern.uniform false).append (.text " ->")).append hbody, branchDocs_uniform rest⟩

end

mutual

theorem TypeExpr.uniform : ∀ (type : TypeExpr) (prec : TypePrec), (type.toDocIn prec).Uniform
  | .named name arguments, prec => by
    have harguments := typeDocs_uniform .argument arguments
    cases arguments with
    | nil => rw [TypeExpr.toDocIn]; exact .text name
    | cons first rest =>
      rw [TypeExpr.toDocIn]
      · exact uniform_parens _ (uniform_spread (.text name) harguments)
      · exact List.cons_ne_nil first rest
  | .unit, _ => by rw [TypeExpr.toDocIn]; exact .text "()"
  | .tuple items, _ => by
    rw [TypeExpr.toDocIn]; exact uniform_sequence _ _ (typeDocs_uniform .top items)
  | .record fields, _ => by
    rw [TypeExpr.toDocIn]; exact uniform_sequence _ _ (typeFieldDocs_uniform fields)
  | .function argument result, prec => by
    rw [TypeExpr.toDocIn]
    exact uniform_parens _
      (((argument.uniform .arrow).append (.text " -> ")).append (result.uniform .top))

theorem typeDocs_uniform (prec : TypePrec) :
    ∀ (types : List TypeExpr), ∀ d ∈ typeDocs prec types, d.Uniform
  | [] => by rw [typeDocs]; exact List.forall_mem_nil _
  | type :: rest => by
    rw [typeDocs]
    exact List.forall_mem_cons.2 ⟨type.uniform prec, typeDocs_uniform prec rest⟩

theorem typeFieldDocs_uniform :
    ∀ (fields : List (String × TypeExpr)), ∀ d ∈ typeFieldDocs fields, d.Uniform
  | [] => by rw [typeFieldDocs]; exact List.forall_mem_nil _
  | (name, type) :: rest => by
    rw [typeFieldDocs]
    exact List.forall_mem_cons.2
      ⟨(Doc.Uniform.text _).append (type.uniform .top), typeFieldDocs_uniform rest⟩

end

/-! ## Declarations -/

theorem uniform_ctorDoc (lead : String) (ctor : String × List TypeExpr) :
    (ctorDoc lead ctor).Uniform := by
  refine .append ((Doc.Uniform.hardline.append (.text lead)).append (.text ctor.1)) (.concat ?_)
  exact List.forall_mem_map.2 fun d hd =>
    (Doc.Uniform.text " ").append (typeDocs_uniform .argument ctor.2 d hd)

theorem uniform_ctorDocs (ctors : List (String × List TypeExpr)) :
    ∀ d ∈ ctorDocs ctors, d.Uniform := by
  cases ctors with
  | nil => exact List.forall_mem_nil _
  | cons first rest =>
    refine List.forall_mem_cons.2 ⟨uniform_ctorDoc "= " first, List.forall_mem_map.2 ?_⟩
    exact fun ctor _ => uniform_ctorDoc "| " ctor

theorem Decl.uniform (decl : Decl) : decl.toDoc.Uniform := by
  have hindented : ∀ {d : Doc}, d.Uniform → ((Doc.hardline ++ d).nest indentation).Uniform :=
    fun hd => .nest indentation (Doc.Uniform.hardline.append hd)
  cases decl with
  | value name signature body =>
    refine .append (.append (.append ?_ .hardline) (.text _)) (hindented (body.uniform .top))
    exact (Doc.Uniform.text _).append (signature.uniform .top)
  | «alias» name type => exact (Doc.Uniform.text _).append (hindented (type.uniform .top))
  | custom name ctors =>
    exact (Doc.Uniform.text _).append (.nest indentation (.concat (uniform_ctorDocs ctors)))

/-- Up to blanks, the text of declarations is that of their lines. -/
theorem squeeze_renderDecls (width : Nat) (decls : List Decl) :
    Text.squeeze (renderDecls width decls) =
      Text.squeeze (String.intercalate "\n\n\n" (decls.map fun decl => decl.toDoc.oneLine)) := by
  rw [Text.squeeze_eq, Text.squeeze_eq, renderDecls,
    Text.onto_intercalate fun decl tail => onto_render decl.uniform width tail]

/-- **The page makes no difference to Elm code but for blanks**: on pages of any two widths the same
declarations have the same text, once every run of spaces and line breaks is a single space and none
is left before a comma.  So have the types and the codecs that are generated for a schema. -/
theorem renderDecls_width (width width' : Nat) :
    (∀ decls, Text.squeeze (renderDecls width decls) = Text.squeeze (renderDecls width' decls)) ∧
      ∀ schema,
        Text.squeeze (renderTypes width schema) = Text.squeeze (renderTypes width' schema) ∧
        Text.squeeze (renderCodecs width schema) = Text.squeeze (renderCodecs width' schema) := by
  have hdecls : ∀ decls,
      Text.squeeze (renderDecls width decls) = Text.squeeze (renderDecls width' decls) := by
    intro decls
    rw [squeeze_renderDecls width, squeeze_renderDecls width']
  exact ⟨hdecls, fun schema => ⟨hdecls _, hdecls _⟩⟩

end ElmWire.Elm
