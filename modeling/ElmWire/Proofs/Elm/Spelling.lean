import ElmWire.Proofs.Elm.Documents
import ElmWire.Proofs.Elm.ExprGrammar

/-!
# Expressions that can be read back

`Legible` are the expressions that the grammar of generated code knows
(`ElmWire.Proofs.Elm.ExprGrammar`): words, strings and brackets, words that are applied, values that
are sent through applications, and functions, the body of which may be a case expression.

**What is printed for such an expression reads as the expression** (`Legible.reads`), on a page of
any width.  So no two of them have the same text, not even up to blanks
(`Legible.squeeze_render_iff`).
-/

set_option autoImplicit false
namespace ElmWire.Elm

open Layout ExprGrammar

/-! ## Legible expressions -/

/-- A text that is read as a word. -/
structure IsToken (w : String) : Prop where
  ne_empty : w ≠ ""
  chars : ∀ c ∈ w.toList, isWordChar c = true

theorem isToken_of_isIdentifier {w : String} (h : isIdentifier w = true) : IsToken w :=
  ⟨(chars_of_isIdentifier h).1, fun c hc =>
    isWordChar_of_isNameChar ((chars_of_isIdentifier h).2 c hc)⟩

/-- Whether a text is a word can be computed. -/
theorem isToken_of_all {w : String} (hne : w ≠ "") (h : w.toList.all isWordChar = true) :
    IsToken w := ⟨hne, List.all_eq_true.1 h⟩

theorem IsToken.tokens {w : String} (h : IsToken w) {cs : List Char} (hcs : Boundary cs) :
    tokens (w.toList ++ cs) = .word w :: tokens cs :=
  tokens_word h.ne_empty h.chars hcs

/-- A word that is the name of a function. -/
structure IsFunction (w : String) : Prop extends IsToken w where
  reads : Expr.ofWord w = .var w
  ne_case : w ≠ "case"

/-- Is it something applied to arguments? -/
def Expr.isApp : Expr → Bool
  | .app _ _ => true
  | _ => false

/-- The names in a branch of a case expression can be read. -/
structure ExprGrammar.Branch.Named (b : Branch) : Prop where
  ctor : IsToken b.ctor
  params : ∀ w ∈ b.params, IsToken w
  function : IsToken b.function
  tag : isIdentifier b.tag = true

/-- The expressions that generated code is made of. -/
inductive Legible : Expr → Prop
  | word {e : Expr} {w : String} (hw : IsToken w) (hreads : Expr.ofWord w = e)
      (hprint : ∀ prec, (e.toDoc prec).oneLine = w) : Legible e
  | string {s : String} (h : isIdentifier s = true) : Legible (.string s)
  | app {w : String} {es : List Expr} (hw : IsFunction w) (hne : es ≠ [])
      (h : ∀ e ∈ es, Legible e) : Legible (.app (.var w) es)
  | list {es : List Expr} (h : ∀ e ∈ es, Legible e) : Legible (.list es)
  | tuple {es : List Expr} (hlength : 2 ≤ es.length) (h : ∀ e ∈ es, Legible e) :
      Legible (.tuple es)
  | record {fields : List (String × Expr)} (hnames : ∀ field ∈ fields, isIdentifier field.1 = true)
      (h : ∀ field ∈ fields, Legible field.2) : Legible (.record fields)
  | pipe {head : Expr} {stages : List Expr} (hhead : head.isApp = true)
      (hstages : ∀ e ∈ stages, e.isApp = true) (hne : stages ≠ []) (h : Legible head)
      (hrest : ∀ e ∈ stages, Legible e) : Legible (.pipe head stages)
  | lambda {ws : List String} {body : Expr} (hws : ∀ w ∈ ws, IsToken w) (h : Legible body) :
      Legible (.lambda (ws.map .ofWord) body)
  | lambdaCase {ws : List String} {w : String} {branches : List Branch}
      (hws : ∀ w ∈ ws, IsToken w) (hw : IsToken w) (hreads : Expr.ofWord w = .var w)
      (hnames : ∀ b ∈ branches, b.Named) (h : ∀ b ∈ branches, ∀ e ∈ b.items, Legible e) :
      Legible (.lambda (ws.map .ofWord) (.case (.var w) (branches.map Branch.toPair)))

/-! ## Parts of a text -/

namespace ExprGrammar

/-- A text that reads as a phrase in front of whatever does not go on with a token. -/
def Spells (text : String) (p : Phrase) : Prop :=
  ∀ cs, Boundary cs → Derives (tokens (text.toList ++ cs)) p (tokens cs)

/-- Parentheses around what reads as an expression. -/
theorem spells_group {text : String} {e : Expr} (h : Spells text (.expr .any e)) :
    Spells ("(" ++ text ++ ")") (.expr .atom e) := by
  intro cs _
  have htext : ("(" ++ text ++ ")").toList ++ cs = '(' :: (text.toList ++ ')' :: cs) := by simp
  have hclose : tokens (')' :: cs) = .mark .rightParen :: tokens cs :=
    tokens_single (by decide) (by decide) cs
  have hitem := h (')' :: cs) (boundary_cons (by decide) cs)
  rw [hclose] at hitem
  rw [htext, tokens_single (by decide) (by decide)]
  exact .group (.lastItem hitem)

/-- The places in which expressions are printed most: anywhere, and where only what needs no
parentheses may stand. -/
structure Printable (e : Expr) : Prop where
  any : Spells (e.toDoc .top).oneLine (.expr .any e)
  atom : Spells (e.toDoc .atomic).oneLine (.expr .atom e)

theorem Printable.of_atom {e : Expr} {text : String}
    (hprint : ∀ prec, (e.toDoc prec).oneLine = text) (h : Spells text (.expr .atom e)) :
    Printable e := by
  constructor
  · rw [hprint]
    exact fun cs hcs => .operand (.atom (h cs hcs))
  · rw [hprint]
    exact h

/-- What has to be put in parentheses to stand in a place for what needs none. -/
theorem Printable.of_any {e : Expr}
    (hprint : (e.toDoc .atomic).oneLine = "(" ++ (e.toDoc .top).oneLine ++ ")")
    (h : Spells (e.toDoc .top).oneLine (.expr .any e)) : Printable e := by
  refine ⟨h, ?_⟩
  rw [hprint]
  exact spells_group h

theorem spells_arguments {es : List Expr} (h : ∀ e ∈ es, Printable e) :
    Spells (spaced (exprDocs .atomic es)) (.arguments es) := by
  intro cs hcs
  rw [exprDocs_eq_map]
  refine reads_spaced (R := fun es ts rest => Derives ts (.arguments es) rest)
    .noArguments (fun e he others cs rest hcs hothers => ?_) hcs
  exact .argument ((h e he).atom cs hcs) hothers

theorem readsItem_expr {closing : Mark} {e : Expr} (h : Printable e) :
    ReadsItem (fun es ts rest => Derives ts (.items closing es) rest) (Expr.toDoc .top) closing
      e := by
  constructor
  · intro cs rest hcs hclosing
    have hlast := h.any cs hcs
    rw [hclosing] at hlast
    exact .lastItem hlast
  · intro next others cs us rest hcs hcomma hothers
    have hfirst := h.any cs hcs
    rw [hcomma] at hfirst
    exact .item hfirst hothers

theorem tokens_list {es : List Expr} (h : ∀ e ∈ es, Printable e) (cs : List Char) :
    ∃ ts, tokens ((sequence "[" (exprDocs .top es) "]").oneLine.toList ++ cs) =
      .mark .leftBracket :: ts ∧ Derives ts (.items .rightBracket es) (tokens cs) := by
  rw [exprDocs_eq_map]
  exact reads_sequence (o := "[") (c := "]")
    (tokens_single (by decide) (by decide)) (tokens_single (by decide) (by decide))
    (.noItems .rightBracket) (fun e he => readsItem_expr (h e he)) cs

theorem spells_list {es : List Expr} (h : ∀ e ∈ es, Printable e) :
    Spells (sequence "[" (exprDocs .top es) "]").oneLine (.expr .atom (.list es)) := by
  intro cs _
  obtain ⟨ts, htokens, hitems⟩ := tokens_list h cs
  rw [htokens]
  exact .list hitems

theorem spells_tuple {es : List Expr} (hlength : 2 ≤ es.length) (h : ∀ e ∈ es, Printable e) :
    Spells (sequence "(" (exprDocs .top es) ")").oneLine (.expr .atom (.tuple es)) := by
  intro cs _
  obtain ⟨ts, htokens, hitems⟩ := reads_sequence (o := "(") (c := ")")
    (tokens_single (by decide) (by decide)) (tokens_single (by decide) (by decide))
    (.noItems .rightParen) (fun e he => readsItem_expr (h e he)) cs
  rw [exprDocs_eq_map, ← grouped_eq_tuple hlength, htokens]
  exact .group hitems

/-- The name of a field, in front of its value. -/
theorem tokens_fieldName {name : String} (h : isIdentifier name = true) (d : Doc) (cs : List Char) :
    tokens ((Doc.text (name ++ " = ") ++ d).oneLine.toList ++ cs) =
      .word name :: .mark .equals :: tokens (d.oneLine.toList ++ cs) := by
  have htext : (Doc.text (name ++ " = ") ++ d).oneLine.toList ++ cs =
      name.toList ++ ' ' :: '=' :: ' ' :: (d.oneLine.toList ++ cs) := by
    simp [Doc.oneLine_append, Doc.oneLine]
  rw [htext, (isToken_of_isIdentifier h).tokens (boundary_cons (by decide) _), tokens_equals]

theorem spells_record {fields : List (String × Expr)}
    (hnames : ∀ field ∈ fields, isIdentifier field.1 = true)
    (h : ∀ field ∈ fields, Printable field.2) :
    Spells (sequence "\x7b" (fieldDocs fields) "\x7d").oneLine (.expr .atom (.record fields)) := by
  have hitem : ∀ field ∈ fields, ReadsItem (fun fields ts rest => Derives ts (.fields fields) rest)
      (fun field => Doc.text (field.1 ++ " = ") ++ field.2.toDoc .top) .rightBrace field := by
    intro field hfield
    constructor
    · intro cs rest hcs hclosing
      have hlast := (h field hfield).any cs hcs
      rw [hclosing] at hlast
      rw [tokens_fieldName (hnames field hfield)]
      exact .lastField hlast
    · intro next others cs us rest hcs hcomma hothers
      have hfirst := (h field hfield).any cs hcs
      rw [hcomma] at hfirst
      rw [tokens_fieldName (hnames field hfield)]
      exact .field hfirst hothers
  intro cs _
  obtain ⟨ts, htokens, hfields⟩ := reads_sequence (o := "\x7b") (c := "\x7d")
    (tokens_single (by decide) (by decide)) (tokens_single (by decide) (by decide))
    .noFields hitem cs
  rw [fieldDocs_eq_map, htokens]
  exact .record hfields

/-- A string, which is a name and so has nothing in it to escape. -/
theorem tokens_quote {s : String} (h : isIdentifier s = true) (cs : List Char) :
    tokens ((Json.quote s).toList ++ cs) =
      .mark .quote :: .word s :: .mark .quote :: tokens cs := by
  have hescape : s.toList.flatMap Json.escapeChar = s.toList := by
    rw [List.flatMap_congr fun c hc => TypeScript.escapeChar_of_isLiteralChar
      (TypeScript.isLiteralChar_of_isNameChar ((chars_of_isIdentifier h).2 c hc))]
    simp
  have htext : (Json.quote s).toList ++ cs = '"' :: (s.toList ++ '"' :: cs) := by
    rw [Json.quote, hescape]
    simp
  rw [htext, tokens_single (by decide) (by decide),
    (isToken_of_isIdentifier h).tokens (boundary_cons (by decide) _),
    tokens_single (by decide) (by decide)]
  rfl

/-! ## Applications -/

theorem oneLine_app (function : Expr) (es : List Expr) (prec : Prec) :
    ((Expr.app function es).toDoc prec).oneLine =
      if prec = .atomic then "(" ++ ((Expr.app function es).toDoc .top).oneLine ++ ")"
      else ((Expr.app function es).toDoc .top).oneLine := by
  simp only [Expr.toDoc, oneLine_parens]
  cases prec <;> rfl

theorem spells_app {w : String} {es : List Expr} (hw : IsFunction w) (hne : es ≠ [])
    (h : ∀ e ∈ es, Printable e) :
    Spells ((Expr.app (.var w) es).toDoc .top).oneLine (.expr .application (.app (.var w) es)) := by
  intro cs hcs
  obtain ⟨e, rest, rfl⟩ := List.exists_cons_of_ne_nil hne
  have htext : ((Expr.app (.var w) (e :: rest)).toDoc .top).oneLine =
      w ++ spaced (exprDocs .atomic (e :: rest)) := by
    rw [Expr.toDoc, oneLine_parens, if_neg (by decide), oneLine_spread, Expr.toDoc, Doc.oneLine]
  rw [htext, String.toList_append, List.append_assoc, hw.tokens (boundary_spaced _ hcs), ← hw.reads]
  exact .apply hw.ne_case (spells_arguments h cs hcs)

/-- An application is read as one, and not as a value that is sent through functions. -/
theorem derives_application {e : Expr} (happ : e.isApp = true) {ts rest : List Token}
    (h : Derives ts (.expr .any e) rest) : Derives ts (.expr .application e) rest := by
  cases h with
  | operand h => exact h
  | pipe | lambda | lambdaCase => cases happ

theorem spells_application {e : Expr} (happ : e.isApp = true) (h : Printable e) :
    Spells (e.toDoc .pipe).oneLine (.expr .application e) := by
  cases e with
  | app function es =>
    rw [oneLine_app, if_neg (by decide)]
    exact fun cs hcs => derives_application happ (h.any cs hcs)
  | _ => cases happ

/-- A function that a value is sent through, with the mark before it. -/
def stageDoc (e : Expr) : Doc := Doc.text "|> " ++ e.toDoc .pipe

theorem tokens_stageDoc (e : Expr) (cs : List Char) :
    tokens ((stageDoc e).oneLine.toList ++ cs) =
      .mark .pipe :: tokens ((e.toDoc .pipe).oneLine.toList ++ cs) := by
  have htext : (stageDoc e).oneLine.toList ++ cs =
      '|' :: '>' :: ' ' :: ((e.toDoc .pipe).oneLine.toList ++ cs) := by
    simp [stageDoc, Doc.oneLine_append, Doc.oneLine]
  rw [htext, ← tokens_pipe, tokens_blank (c := ' ') (by decide)]

theorem spells_stages {stages : List Expr} (hstages : ∀ e ∈ stages, e.isApp = true)
    (h : ∀ e ∈ stages, Printable e) :
    Spells (spaced (stages.map stageDoc)) (.stages stages) := by
  intro cs hcs
  refine reads_spaced (R := fun es ts rest => Derives ts (.stages es) rest)
    .noStages (fun e he others cs rest hcs hothers => ?_) hcs
  rw [tokens_stageDoc]
  exact .stage (spells_application (hstages e he) (h e he) cs hcs) hothers

theorem spells_pipe {head : Expr} {stages : List Expr} (hhead : head.isApp = true)
    (hstages : ∀ e ∈ stages, e.isApp = true) (hne : stages ≠ []) (h : Printable head)
    (hrest : ∀ e ∈ stages, Printable e) :
    Spells ((Expr.pipe head stages).toDoc .top).oneLine (.expr .any (.pipe head stages)) := by
  intro cs hcs
  obtain ⟨e, others, rfl⟩ := List.exists_cons_of_ne_nil hne
  have hdocs : (exprDocs .pipe (e :: others)).map (Doc.text "|> " ++ ·) =
      (e :: others).map stageDoc := by
    rw [exprDocs_eq_map, List.map_map]
    rfl
  rw [Expr.toDoc, oneLine_parens, if_neg (by decide), oneLine_spread, hdocs, String.toList_append,
    List.append_assoc]
  exact .pipe (spells_application hhead h _ (boundary_spaced _ hcs))
    (spells_stages hstages hrest cs hcs)

/-! ## Functions -/

theorem oneLine_ofWord (w : String) (atomic : Bool) :
    ((Pattern.ofWord w).toDoc atomic).oneLine = w := by
  rw [Pattern.ofWord]
  split
  · next h => rw [h, Pattern.toDoc, Doc.oneLine]
  · rw [Pattern.toDoc, Doc.oneLine]

/-- Words with a space before each, up to an arrow. -/
theorem derives_params {ws : List String} (h : ∀ w ∈ ws, IsToken w) {cs : List Char}
    {us : List Token} (hcs : tokens (' ' :: '-' :: '>' :: cs) = .mark .arrow :: us) :
    Derives (tokens ((spaced (ws.map .text)).toList ++ ' ' :: '-' :: '>' :: cs)) (.params ws)
      us := by
  have harrow : Derives (tokens (' ' :: '-' :: '>' :: cs)) (.params []) us := by
    rw [hcs]
    exact .noParams us
  have hboundary : Boundary (' ' :: '-' :: '>' :: cs) := boundary_cons (by decide) _
  refine reads_spaced
    (R := fun ws ts rest => Derives rest (.params []) us → Derives ts (.params ws) us)
    (fun ts hparams => hparams) (fun w hw others cs rest hcs hothers hparams => ?_) hboundary harrow
  rw [Doc.oneLine, (h w hw).tokens hcs]
  exact .param w (hothers hparams)

theorem space_append_intercalate (w : String) (ws : List String) :
    " " ++ " ".intercalate (w :: ws) = spaced ((w :: ws).map .text) := by
  induction ws generalizing w with
  | nil => simp [spaced, Doc.oneLine]
  | cons w' rest ih =>
    rw [String.intercalate_cons_cons, String.append_assoc, ih]
    simp [spaced, Doc.oneLine, String.append_assoc]

/-- The words between the backslash and the arrow of a function. -/
theorem tokens_intercalate_space (ws : List String) (cs : List Char) :
    tokens ((" ".intercalate ws).toList ++ cs) = tokens ((spaced (ws.map .text)).toList ++ cs) := by
  cases ws with
  | nil => rfl
  | cons w rest =>
    rw [← space_append_intercalate, String.toList_append, List.append_assoc]
    exact (tokens_blank (by decide) _).symm

/-- The head of a function, up to its body. -/
theorem tokens_lambda (ws : List String) (body : Expr) (cs : List Char) :
    tokens (((Expr.lambda (ws.map .ofWord) body).toDoc .top).oneLine.toList ++ cs) =
      .mark .backslash :: tokens ((spaced (ws.map .text)).toList ++
        ' ' :: '-' :: '>' :: ' ' :: ((body.toDoc .top).oneLine.toList ++ cs)) := by
  have hwords : (((ws.map Pattern.ofWord).map (Pattern.toDoc true)).map Doc.oneLine) = ws := by
    rw [List.map_map, List.map_map]
    exact (List.map_congr_left fun w _ => oneLine_ofWord w true).trans (List.map_id ws)
  have htext : ((Expr.lambda (ws.map .ofWord) body).toDoc .top).oneLine.toList ++ cs =
      '\\' :: ((" ".intercalate ws).toList ++
        ' ' :: '-' :: '>' :: ' ' :: ((body.toDoc .top).oneLine.toList ++ cs)) := by
    rw [Expr.toDoc, oneLine_parens, if_neg (by decide), oneLine_spread, Doc.oneLine_append,
      Doc.oneLine_append, Doc.oneLine_join, hwords]
    simp [spaced, Doc.oneLine]
  rw [htext, tokens_single (by decide) (by decide), tokens_intercalate_space]
  rfl

theorem spells_lambda {ws : List String} {body : Expr} (hws : ∀ w ∈ ws, IsToken w)
    (h : Printable body) :
    Spells ((Expr.lambda (ws.map .ofWord) body).toDoc .top).oneLine
      (.expr .any (.lambda (ws.map .ofWord) body)) := by
  intro cs hcs
  rw [tokens_lambda]
  exact .lambda (derives_params hws (tokens_arrow _)) (h.any cs hcs)

/-! ## Case expressions -/

theorem patternDocs_eq_map (ws : List String) :
    patternDocs (ws.map .var) = ws.map fun w => Doc.text " " ++ .text w := by
  induction ws with
  | nil => rw [List.map_nil, patternDocs]; rfl
  | cons w rest ih => rw [List.map_cons, patternDocs, ih, Pattern.toDoc]; rfl

theorem oneLine_ctor (name : String) (ws : List String) :
    ((Pattern.ctor name (ws.map .var)).toDoc false).oneLine = name ++ spaced (ws.map .text) := by
  cases ws with
  | nil => simp [Pattern.toDoc, Doc.oneLine, spaced]
  | cons w rest =>
    rw [Pattern.toDoc, oneLine_parens, if_neg (by decide), Doc.oneLine_append, Doc.oneLine_concat,
      patternDocs_eq_map, List.map_map, spaced, List.map_map, Doc.oneLine]
    · congr 2
    · simp

/-- A branch of a case expression that can be read. -/
structure Branch.Printable (b : Branch) : Prop extends b.Named where
  items : ∀ e ∈ b.items, ExprGrammar.Printable e

/-- The text of a branch. -/
def Branch.text (b : Branch) : String :=
  (b.toPair.1.toDoc false ++ .text " ->" ++
    (Doc.hardline ++ b.toPair.2.toDoc .top).nest indentation).oneLine

theorem Branch.tokens_body {b : Branch} (h : b.Printable) (cs : List Char) :
    ∃ us, tokens ((b.toPair.2.toDoc .top).oneLine.toList ++ cs) = .word b.function ::
        .mark .quote :: .word b.tag :: .mark .quote :: .mark .leftBracket :: us ∧
      Derives us (.items .rightBracket b.items) (tokens cs) := by
  obtain ⟨us, htokens, hitems⟩ := tokens_list h.items cs
  have htext : (b.toPair.2.toDoc .top).oneLine.toList ++ cs =
      b.function.toList ++ ' ' :: ((Json.quote b.tag).toList ++
        ' ' :: ((sequence "[" (exprDocs .top b.items) "]").oneLine.toList ++ cs)) := by
    rw [toPair, Expr.toDoc, oneLine_parens, if_neg (by decide), oneLine_spread]
    simp [spaced, exprDocs, Expr.toDoc, Doc.oneLine]
  rw [htext, h.function.tokens (boundary_cons (by decide) _), tokens_blank (by decide),
    tokens_quote h.tag, tokens_blank (by decide), htokens]
  exact ⟨us, rfl, hitems⟩

theorem Branch.derives {b : Branch} (h : b.Printable) {branches : List Branch} {cs : List Char}
    {rest : List Token} (hbranches : Derives (tokens cs) (.branches branches) rest) :
    Derives (tokens (b.text.toList ++ cs)) (.branches (b :: branches)) rest := by
  obtain ⟨us, hbody, hitems⟩ := Branch.tokens_body h cs
  have htext : b.text.toList ++ cs = b.ctor.toList ++ ((spaced (b.params.map .text)).toList ++
      ' ' :: '-' :: '>' :: '\n' :: ((b.toPair.2.toDoc .top).oneLine.toList ++ cs)) := by
    rw [text, Doc.oneLine_append, Doc.oneLine_append, Doc.oneLine_nest, Doc.oneLine_append, toPair,
      oneLine_ctor]
    simp [Doc.oneLine]
  have harrow : ∀ cs, tokens (' ' :: '-' :: '>' :: '\n' :: cs) = .mark .arrow :: tokens cs :=
    fun _ => rfl
  have hparams := derives_params h.params
    (harrow ((b.toPair.2.toDoc .top).oneLine.toList ++ cs))
  rw [hbody] at hparams
  rw [htext, h.ctor.tokens (boundary_spaced _ (boundary_cons (by decide) _))]
  exact .branch hparams hitems hbranches

theorem oneLine_branches (branches : List Branch) :
    (Doc.join (Doc.hardline ++ .hardline) (branchDocs (branches.map Branch.toPair))).oneLine =
      "\n\n".intercalate (branches.map Branch.text) := by
  rw [Doc.oneLine_join, branchDocs_eq_map, List.map_map, List.map_map, Doc.oneLine_append]
  rfl

theorem derives_branches {branches : List Branch} (h : ∀ b ∈ branches, b.Printable)
    (cs : List Char) :
    Derives (tokens (("\n\n".intercalate (branches.map Branch.text)).toList ++ cs))
      (.branches branches) (tokens cs) := by
  induction branches with
  | nil => exact .noBranches _
  | cons b rest ih =>
    obtain ⟨hb, hrest⟩ := List.forall_mem_cons.1 h
    cases rest with
    | nil => exact Branch.derives hb (.noBranches _)
    | cons b' rest =>
      have htext : ("\n\n".intercalate ((b :: b' :: rest).map Branch.text)).toList ++ cs =
          b.text.toList ++ '\n' :: '\n' ::
            (("\n\n".intercalate ((b' :: rest).map Branch.text)).toList ++ cs) := by
        rw [List.map_cons, List.map_cons, String.intercalate_cons_cons]
        simp
      rw [htext]
      refine Branch.derives hb ?_
      rw [tokens_blank (by decide), tokens_blank (by decide)]
      exact ih hrest

theorem spells_lambdaCase {ws : List String} {w : String} {branches : List Branch}
    (hws : ∀ w ∈ ws, IsToken w) (hw : IsToken w) (hreads : Expr.ofWord w = .var w)
    (h : ∀ b ∈ branches, b.Printable) :
    Spells ((Expr.lambda (ws.map .ofWord)
        (.case (.var w) (branches.map Branch.toPair))).toDoc .top).oneLine
      (.expr .any (.lambda (ws.map .ofWord) (.case (.var w) (branches.map Branch.toPair)))) := by
  intro cs hcs
  have htext : ((Expr.case (.var w) (branches.map Branch.toPair)).toDoc .top).oneLine.toList ++ cs =
      "case".toList ++ ' ' :: (w.toList ++ ' ' :: ("of".toList ++
        '\n' :: (("\n\n".intercalate (branches.map Branch.text)).toList ++ cs))) := by
    rw [Expr.toDoc, oneLine_parens, if_neg (by decide), Doc.oneLine_append, Doc.oneLine_append,
      Doc.oneLine_append, Doc.oneLine_nest, Doc.oneLine_append, oneLine_branches, Expr.toDoc]
    simp [Doc.oneLine]
  have hhead : tokens (((Expr.case (.var w) (branches.map Branch.toPair)).toDoc .top).oneLine.toList
      ++ cs) = .word "case" :: .word w :: .word "of" ::
        tokens (("\n\n".intercalate (branches.map Branch.text)).toList ++ cs) := by
    have hcase : IsToken "case" := isToken_of_all (by decide) (by decide)
    have hof : IsToken "of" := isToken_of_all (by decide) (by decide)
    rw [htext, hcase.tokens (boundary_cons (by decide) _), tokens_blank (by decide),
      hw.tokens (boundary_cons (by decide) _), tokens_blank (by decide),
      hof.tokens (boundary_cons (by decide) _), tokens_blank (by decide)]
  have hparams := derives_params hws (tokens_arrow
    (((Expr.case (.var w) (branches.map Branch.toPair)).toDoc .top).oneLine.toList ++ cs))
  rw [hhead] at hparams
  have hlambda := Derives.lambdaCase hparams (derives_branches h cs)
  rw [hreads] at hlambda
  rw [tokens_lambda]
  exact hlambda

end ExprGrammar

/-! ## Reading legible expressions -/

open ExprGrammar in
theorem Legible.printable {e : Expr} (h : Legible e) : Printable e := by
  induction h with
  | word hw hreads hprint =>
    refine .of_atom hprint fun cs hcs => ?_
    rw [hw.tokens hcs, ← hreads]
    exact .word _ _
  | string h =>
    refine .of_atom (fun prec => by rw [Expr.toDoc, Doc.oneLine]) fun cs hcs => ?_
    rw [tokens_quote h]
    exact .string _ _
  | app hw hne h ih =>
    refine .of_any (by rw [oneLine_app, if_pos rfl]) fun cs hcs => ?_
    exact .operand (spells_app hw hne ih cs hcs)
  | list h ih => exact .of_atom (fun prec => by rw [Expr.toDoc]) (spells_list ih)
  | tuple hlength h ih => exact .of_atom (fun prec => by rw [Expr.toDoc]) (spells_tuple hlength ih)
  | record hnames h ih => exact .of_atom (fun prec => by rw [Expr.toDoc]) (spells_record hnames ih)
  | pipe hhead hstages hne h hrest ih ihrest =>
    refine .of_any ?_ (spells_pipe hhead hstages hne ih ihrest)
    simp only [Expr.toDoc, oneLine_parens]
    rfl
  | lambda hws h ih =>
    refine .of_any ?_ (spells_lambda hws ih)
    simp only [Expr.toDoc, oneLine_parens]
    rfl
  | lambdaCase hws hw hreads hnames h ih =>
    refine .of_any ?_ (spells_lambdaCase hws hw hreads fun b hb => ⟨hnames b hb, ih b hb⟩)
    simp only [Expr.toDoc, oneLine_parens]
    rfl

/-- **What is printed for the expression reads as the expression**, whatever the page. -/
theorem Legible.reads {e : Expr} (h : Legible e) (width : Nat) :
    Reads (render width (e.toDoc .top)) e := by
  have hany := h.printable.any [] boundary_nil
  rw [List.append_nil] at hany
  rw [Reads, tokens_render (e.uniform .top)]
  exact hany

/-- **The text of an expression determines it**, up to blanks. -/
theorem Legible.squeeze_render_iff {e e' : Expr} (h : Legible e) (h' : Legible e')
    {width width' : Nat} :
    Text.squeeze (render width (e.toDoc .top)) = Text.squeeze (render width' (e'.toDoc .top)) ↔
      e = e' := by
  constructor
  · intro heq
    have hreads := h.reads width
    rw [Reads, tokens_eq_of_squeeze_eq heq] at hreads
    exact (h'.reads width').unique hreads
  · rintro rfl
    have huniform := e.uniform .top
    rw [Text.squeeze_eq, Text.squeeze_eq, onto_render huniform, onto_render huniform]

end ElmWire.Elm
