import ElmWire.Proofs.Elm.Offside
import ElmWire.Proofs.Elm.OperatorGrammar

/-!
# Expressions in one line

A document that is flattened is laid out in one line, however narrow the page is, unless there is a
line break in it that is always there.  Of the expressions only case expressions have such line
breaks.

* `Expr.isProper` — expressions of Elm without case expressions: names are names, numbers are not
  negative, and nothing is applied to nothing.
* `Expr.render_flatten` — **the text of a flattened proper expression is its text in one line, on
  every page**.
-/

set_option autoImplicit false
namespace ElmWire

namespace Layout.Doc

/-- Every flat layout of the document is made of texts, which together are its text in one line. -/
def FlatText (d : Doc) : Prop :=
  ∀ indent column, ∀ out ∈ d.layouts indent .flat column,
    ∃ texts : List String, out = texts.map .text ∧ String.join texts = d.oneLine

namespace FlatText

variable {a b d : Doc}

theorem of_inline (h : d.Inline) : d.FlatText := fun indent column => h indent .flat column

theorem text (s : String) : FlatText (.text s) := of_inline (.text s)

theorem nil : FlatText .nil := by
  rintro indent column out rfl
  exact ⟨[], rfl, rfl⟩

theorem line (flat broken : String) : FlatText (.line flat broken) := by
  rintro indent column out rfl
  rw [separator]
  split
  · next hempty => exact ⟨[], rfl, (String.isEmpty_iff.1 hempty).symm⟩
  · exact ⟨[flat], rfl, by simp [oneLine]⟩

theorem append (ha : a.FlatText) (hb : b.FlatText) : (a ++ b).FlatText := by
  intro indent column out hout
  rw [layouts_append] at hout
  obtain ⟨first, hfirst, second, hsecond, rfl⟩ := hout
  obtain ⟨texts, rfl, htexts⟩ := ha indent column first hfirst
  obtain ⟨texts', rfl, htexts'⟩ := hb indent _ second hsecond
  exact ⟨texts ++ texts', by simp, by simp [oneLine_append, htexts, htexts']⟩

theorem nest (n : Int) (hd : d.FlatText) : (d.nest n).FlatText := by
  intro indent column
  rw [layouts_nest, oneLine_nest]
  exact hd (indented indent n) column

theorem group (hd : d.FlatText) : d.group.FlatText := hd

theorem align (hd : d.FlatText) : d.align.FlatText := by
  intro indent column out hout
  obtain ⟨texts, rfl, htexts⟩ := hd.nest (signed column - indent) indent column out hout
  refine ⟨texts, rfl, htexts.trans ?_⟩
  rw [oneLine_nest]
  exact (oneLine_nest _ d).symm

theorem foldl {f : Doc → Doc → Doc}
    (hf : ∀ {a d : Doc}, a.FlatText → d.FlatText → (f a d).FlatText)
    {docs : List Doc} (h : ∀ d ∈ docs, d.FlatText) (ha : a.FlatText) :
    (docs.foldl f a).FlatText := by
  induction docs generalizing a with
  | nil => exact ha
  | cons d rest ih =>
    obtain ⟨hd, hrest⟩ := List.forall_mem_cons.1 h
    exact ih hrest (hf ha hd)

theorem concat {docs : List Doc} (h : ∀ d ∈ docs, d.FlatText) : (Doc.concat docs).FlatText :=
  foldl append h nil

theorem join {separator : Doc} (hseparator : separator.FlatText) {docs : List Doc}
    (h : ∀ d ∈ docs, d.FlatText) : (Doc.join separator docs).FlatText := by
  cases docs with
  | nil => exact nil
  | cons first rest =>
    obtain ⟨hfirst, hrest⟩ := List.forall_mem_cons.1 h
    exact foldl (fun ha hd => (ha.append hseparator).append hd) hrest hfirst

end FlatText

/-- **A flattened document of this kind is rendered in one line.** -/
theorem render_flatten {d : Doc} (h : d.FlatText) (width : Nat) :
    render width (.flatten d) = d.oneLine := by
  obtain ⟨texts, heq, htexts⟩ := h 0 0 _ (Elm.toList_best_mem_layouts width (.flatten d))
  rw [render_eq_written, heq, written_eq_intercalate, textLines_texts, htexts]
  simp [TextLine.write_zero]

end Layout.Doc

namespace Elm

open Layout

/-! ## Proper expressions -/

mutual

/-- Names in the pattern are names. -/
def Pattern.isProper : Pattern → Bool
  | .var name => isSmall name
  | .wildcard => true
  | .ctor name arguments => isCapitalised name && patternsAreProper arguments

/-- All patterns are proper. -/
def patternsAreProper : List Pattern → Bool
  | [] => true
  | p :: rest => p.isProper && patternsAreProper rest

end

mutual

/-- An expression of Elm without case expressions. -/
def Expr.isProper : Expr → Bool
  | .var name => isQualifiedName (Text.pieces '.' name)
  | .string _ => true
  | .int n => decide (0 ≤ n)
  | .app function arguments => function.isProper && (!arguments.isEmpty && exprsAreProper arguments)
  | .lambda params body => body.isProper && (!params.isEmpty && patternsAreProper params)
  | .list items => exprsAreProper items
  | .tuple items => decide (2 ≤ items.length) && exprsAreProper items
  | .record fields => fieldsAreProper fields
  | .access subject field => subject.isProper && isSmall field
  | .case _ _ => false
  | .pipe head stages => head.isProper && (!stages.isEmpty && exprsAreProper stages)

/-- All expressions are proper. -/
def exprsAreProper : List Expr → Bool
  | [] => true
  | e :: rest => e.isProper && exprsAreProper rest

/-- All fields have a name and a proper expression. -/
def fieldsAreProper : List (String × Expr) → Bool
  | [] => true
  | (name, e) :: rest => (isSmall name && e.isProper) && fieldsAreProper rest

end

/-! ## Their documents -/

theorem flatText_parens (needed : Bool) {d : Doc} (h : d.FlatText) :
    (parens needed d).FlatText := by
  rw [parens]
  split
  · exact ((Doc.FlatText.text "(").append h).append (.text ")")
  · exact h

theorem flatText_sequence (opening closing : String) {items : List Doc}
    (h : ∀ d ∈ items, d.FlatText) : (sequence opening items closing).FlatText := by
  fun_cases sequence opening items closing with
  | case1 => exact .text _
  | case2 items =>
    have hitems : (Doc.join (.line ", " ", ") items).FlatText := .join (.line _ _) h
    exact ((((Doc.FlatText.text _).append hitems).append (.line _ _)).append (.text _)).align.group

theorem flatText_spread {head : Doc} {parts : List Doc} (hhead : head.FlatText)
    (hparts : ∀ d ∈ parts, d.FlatText) : (spread head parts).FlatText := by
  have hlines : (Doc.concat (parts.map (Doc.space ++ ·))).FlatText :=
    .concat (List.forall_mem_map.2 fun d hd => (Doc.FlatText.line _ _).append (hparts d hd))
  exact (hhead.append (hlines.nest indentation)).group

mutual

theorem Expr.flatText : ∀ (e : Expr) (prec : Prec), e.isProper = true → (e.toDoc prec).FlatText
  | .var _, _, _ | .string _, _, _ | .int _, _, _ => by rw [Expr.toDoc]; exact .text _
  | .app function arguments, prec, h => by
    obtain ⟨hfunction, harguments⟩ := Bool.and_eq_true_iff.1 h
    rw [Expr.toDoc]
    exact flatText_parens _ (flatText_spread (function.flatText .atomic hfunction)
      (exprDocs_flatText .atomic arguments (Bool.and_eq_true_iff.1 harguments).2))
  | .lambda params body, prec, h => by
    have hparams : ∀ d ∈ params.map (Pattern.toDoc true), d.FlatText :=
      List.forall_mem_map.2 fun pattern _ => .of_inline (pattern.inline true)
    rw [Expr.toDoc]
    refine flatText_parens _ (flatText_spread ?_ ?_)
    · exact ((Doc.FlatText.text "\\").append (.join (.text " ") hparams)).append (.text " ->")
    · exact List.forall_mem_singleton.2 (body.flatText .top (Bool.and_eq_true_iff.1 h).1)
  | .list items, _, h => by
    rw [Expr.toDoc]
    exact flatText_sequence "[" "]" (exprDocs_flatText .top items h)
  | .tuple items, _, h => by
    rw [Expr.toDoc]
    exact flatText_sequence "(" ")" (exprDocs_flatText .top items (Bool.and_eq_true_iff.1 h).2)
  | .record fields, _, h => by
    rw [Expr.toDoc]
    exact flatText_sequence "\x7b" "\x7d" (fieldDocs_flatText fields h)
  | .access subject field, _, h => by
    rw [Expr.toDoc]
    exact (subject.flatText .atomic (Bool.and_eq_true_iff.1 h).1).append (.text _)
  | .pipe head stages, prec, h => by
    obtain ⟨hhead, hstages⟩ := Bool.and_eq_true_iff.1 h
    rw [Expr.toDoc]
    refine flatText_parens _ (flatText_spread (head.flatText .pipe hhead) ?_)
    exact List.forall_mem_map.2 fun d hd =>
      (Doc.FlatText.text "|> ").append
        (exprDocs_flatText .pipe stages (Bool.and_eq_true_iff.1 hstages).2 d hd)

theorem exprDocs_flatText (prec : Prec) : ∀ (es : List Expr), exprsAreProper es = true →
    ∀ d ∈ exprDocs prec es, d.FlatText
  | [], _ => by rw [exprDocs]; exact List.forall_mem_nil _
  | e :: rest, h => by
    obtain ⟨he, hrest⟩ := Bool.and_eq_true_iff.1 h
    rw [exprDocs]
    exact List.forall_mem_cons.2 ⟨e.flatText prec he, exprDocs_flatText prec rest hrest⟩

theorem fieldDocs_flatText : ∀ (fields : List (String × Expr)), fieldsAreProper fields = true →
    ∀ d ∈ fieldDocs fields, d.FlatText
  | [], _ => by rw [fieldDocs]; exact List.forall_mem_nil _
  | (name, e) :: rest, h => by
    obtain ⟨he, hrest⟩ := Bool.and_eq_true_iff.1 h
    rw [fieldDocs]
    exact List.forall_mem_cons.2
      ⟨(Doc.FlatText.text _).append (e.flatText .top (Bool.and_eq_true_iff.1 he).2),
        fieldDocs_flatText rest hrest⟩

end

/-- **The text of a flattened proper expression is its text in one line.** -/
theorem Expr.render_flatten {e : Expr} (h : e.isProper = true) (prec : Prec) (width : Nat) :
    render width (.flatten (e.toDoc prec)) = (e.toDoc prec).oneLine :=
  Doc.render_flatten (e.flatText prec h) width

end Elm
end ElmWire
