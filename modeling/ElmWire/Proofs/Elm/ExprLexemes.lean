import ElmWire.Proofs.Elm.FlatText

/-!
# The lexemes of printed expressions

Which lexemes a proper expression is printed as, without the way through its text.

* `Expr.spell prec fields e` — the lexemes of the expression in a place, with fields behind it that
  are looked up.  Fields belong to the word in front of them; behind a number, a string or a list
  there can be none, and what is written there is junk.
* `Expr.spelt` — **the text of an expression in one line has these lexemes**.
-/

set_option autoImplicit false
namespace ElmWire.Elm

open Layout Text

/-! ## Lexemes of expressions -/

/-- The lexemes of fields behind a closing parenthesis or brace. -/
def behind : List String → List Lexeme
  | [] => []
  | fields => [.fields fields]

/-- The lexemes of fields behind what they cannot be looked up in. -/
def misplaced : List String → List Lexeme
  | [] => []
  | fields => [.junk, .fields fields]

/-- Parentheses, where they are needed. -/
def enclosed (needed : Bool) (ts : List Lexeme) : List Lexeme :=
  if needed then .mark .leftParen :: (ts ++ [.mark .rightParen]) else ts

mutual

/-- The lexemes of a pattern that is a parameter or an argument. -/
def Pattern.spell : Pattern → List Lexeme
  | .var name => [.word name]
  | .wildcard => [.word "_"]
  | .ctor name arguments =>
    enclosed (!arguments.isEmpty) (.word name :: (patternSpellings arguments).flatten)

/-- The lexemes of each pattern. -/
def patternSpellings : List Pattern → List (List Lexeme)
  | [] => []
  | p :: rest => p.spell :: patternSpellings rest

end

mutual

/-- The lexemes of an expression in a place, with fields that are looked up behind it. -/
def Expr.spell (prec : Prec) (fields : List String) : Expr → List Lexeme
  | .var name => [.word (name ++ lookups fields)]
  | .string s => (if isPlain s then .string s else .junk) :: misplaced fields
  | .int n => if fields = [] then [.word (toString n)] else [.junk]
  | .app function arguments =>
    enclosed (prec.level > Prec.app.level)
      (function.spell .atomic [] ++ (spellings .atomic arguments).flatten) ++ behind fields
  | .lambda params body =>
    enclosed (prec.level > Prec.top.level)
      (.mark .backslash ::
        ((patternSpellings params).flatten ++ .mark .arrow :: body.spell .top [])) ++ behind fields
  | .list items =>
    .mark .leftBracket :: ([.mark .comma].intercalate (spellings .top items) ++
      .mark .rightBracket :: misplaced fields)
  | .tuple items =>
    .mark .leftParen :: ([.mark .comma].intercalate (spellings .top items) ++
      .mark .rightParen :: behind fields)
  | .record entries =>
    .mark .leftBrace :: ([.mark .comma].intercalate (fieldSpellings entries) ++
      .mark .rightBrace :: behind fields)
  | .access subject field => subject.spell .atomic (field :: fields)
  | .case _ _ => []
  | .pipe head stages =>
    enclosed (prec.level > Prec.pipe.level)
      (head.spell .pipe [] ++ (spellings .pipe stages).flatMap (.mark .pipe :: ·)) ++ behind fields

/-- The lexemes of each expression. -/
def spellings (prec : Prec) : List Expr → List (List Lexeme)
  | [] => []
  | e :: rest => e.spell prec [] :: spellings prec rest

/-- The lexemes of each field of a record. -/
def fieldSpellings : List (String × Expr) → List (List Lexeme)
  | [] => []
  | (name, e) :: rest => (.word name :: .mark .equals :: e.spell .top []) :: fieldSpellings rest

end

/-! ## Names -/

theorem isQualifiedName_of_isSmall {name : String} (h : isSmall name = true) :
    isQualifiedName (pieces '.' name) = true := by
  rw [pieces_of_isIdentifier (isIdentifier_of_isSmall h), isQualifiedName, h, Bool.or_true]

theorem isQualifiedName_of_all_isCapital {path : List String} (hne : path ≠ [])
    (h : path.all isCapital = true) : isQualifiedName path = true := by
  fun_induction isQualifiedName path with
  | case1 => exact absurd rfl hne
  | case2 name => simp_all
  | case3 qualifier rest hrest ih =>
    obtain ⟨hqualifier, hall⟩ := Bool.and_eq_true_iff.1 h
    rw [hqualifier, Bool.true_and]
    exact ih hrest hall

/-! ## Texts and their lexemes -/

/-- The text has the lexemes, in front of whatever does not go on with its last one, and it does not
start with a point. -/
structure Spelt (s : String) (ts : List Lexeme) : Prop where
  opens : ∀ cs, NoPoint (s.toList ++ cs)
  lexemes : ∀ {cs : List Char}, Boundary cs → Elm.lexemes (s.toList ++ cs) = ts ++ Elm.lexemes cs

theorem lexemes_lookups {fields : List String} (h : fields.all isSmall = true) {cs : List Char}
    (hcs : Boundary cs) :
    lexemes ((lookups fields).toList ++ cs) = behind fields ++ lexemes cs := by
  fun_cases behind fields with
  | case1 => simp [lookups]
  | case2 fields hne =>
    rw [lexemes_word (isToken_lookups hne h) hcs, ofRun_lookups hne h]
    rfl

theorem stray_lookups {fields : List String} (h : fields.all isSmall = true) {cs : List Char}
    (hcs : Boundary cs) :
    stray ((lookups fields).toList ++ cs) ++ lexemes ((lookups fields).toList ++ cs) =
      misplaced fields ++ lexemes cs := by
  rw [lexemes_lookups h hcs]
  cases fields with
  | nil =>
    have hnil : stray ((lookups []).toList ++ cs) = [] := by
      simp [stray, lookups, strayPoint_eq_nil (noPoint_of_boundary hcs)]
    rw [hnil]
    rfl
  | cons field rest =>
    have hpoint : stray ((lookups (field :: rest)).toList ++ cs) = [.junk] := by
      simp [stray, strayPoint, lookups_cons, Lexeme.ofRun]
    rw [hpoint]
    rfl

namespace Spelt

variable {s t : String} {ts us : List Lexeme}

theorem word {w : String} {e : Expr} (h : IsWordFor w e) : Spelt w [.word w] := by
  refine ⟨fun cs => ?_, fun hcs => by rw [lexemes_word h.token hcs, h.lexeme]; rfl⟩
  obtain ⟨c, rest, hcons⟩ :=
    List.exists_cons_of_ne_nil (mt String.toList_eq_nil_iff.1 h.token.ne_empty)
  have hlexeme := h.lexeme
  rw [hcons] at hlexeme ⊢
  rintro ⟨⟩
  rw [Lexeme.ofRun] at hlexeme
  split at hlexeme <;> cases hlexeme

/-- A name is a word, in front of a pattern or an expression alike. -/
theorem name {w : String} (h : isQualifiedName (pieces '.' w) = true) : Spelt w [.word w] := by
  have hword := word (@isWordFor_path w h [] rfl)
  rwa [append_lookups_nil] at hword

/-- Texts with a separator between them, which is not part of a word or an operator. -/
theorem intercalate {separator : String} {mid : List Lexeme}
    (hmid : ∀ {cs}, NoPoint cs → Elm.lexemes (separator.toList ++ cs) = mid ++ Elm.lexemes cs)
    (hboundary : ∀ cs, Boundary (separator.toList ++ cs)) {texts : List String}
    {tss : List (List Lexeme)} (h : List.Forall₂ Spelt texts tss) (hne : texts ≠ []) :
    Spelt (separator.intercalate texts) (mid.intercalate tss) := by
  induction h with
  | nil => exact absurd rfl hne
  | @cons s ts texts tss hs hrest ih =>
    cases hrest with
    | nil => simpa using hs
    | cons ht hrest =>
      have ih := ih (List.cons_ne_nil _ _)
      rw [String.intercalate_cons_cons, List.intercalate_cons_cons]
      refine ⟨fun cs => ?_, fun {cs} hcs => ?_⟩
      · rw [String.toList_append, String.toList_append, List.append_assoc, List.append_assoc]
        exact hs.opens _
      · rw [String.toList_append, String.toList_append, List.append_assoc, List.append_assoc,
          hs.lexemes (hboundary _), hmid (ih.opens cs), ih.lexemes hcs]
        simp

theorem spaces {texts : List String} {tss : List (List Lexeme)} (h : List.Forall₂ Spelt texts tss)
    (hne : texts ≠ []) : Spelt (" ".intercalate texts) tss.flatten := by
  have hflatten : ([] : List Lexeme).intercalate tss = tss.flatten := by
    clear h
    induction tss with
    | nil => rfl
    | cons ts tss ih =>
      cases tss with
      | nil => simp
      | cons us tss => rw [List.intercalate_cons_cons, ih, List.append_nil]; rfl
  have hboundary : ∀ cs, Boundary (" ".toList ++ cs) := fun cs => @boundary_cons ' ' (by decide) cs
  rw [← hflatten]
  exact intercalate lexemes_space hboundary h hne

theorem commas {texts : List String} {tss : List (List Lexeme)} (h : List.Forall₂ Spelt texts tss)
    (hne : texts ≠ []) : Spelt (", ".intercalate texts) ([.mark .comma].intercalate tss) := by
  have hcomma : ∀ {cs}, NoPoint cs →
      Elm.lexemes (", ".toList ++ cs) = [.mark .comma] ++ Elm.lexemes cs := by
    intro cs hcs
    rw [← lexemes_space hcs]
    exact lexemes_mark rfl (by decide) (.inl (by rintro ⟨⟩))
  exact intercalate hcomma (fun cs => @boundary_cons ',' (by decide) _) h hne

/-- A head and its parts. -/
theorem spread {head : Doc} {parts : List Doc} {tss : List (List Lexeme)}
    (hhead : Spelt head.oneLine ts)
    (hparts : List.Forall₂ (fun d us => Spelt d.oneLine us) parts tss) :
    Spelt (Elm.spread head parts).oneLine (ts ++ tss.flatten) := by
  have htext : (Elm.spread head parts).oneLine =
      " ".intercalate ((head :: parts).map Doc.oneLine) := by
    rw [oneLine_spread]
    clear hhead hparts
    induction parts generalizing head with
    | nil => simp [spaced]
    | cons part rest ih =>
      have hcons : spaced (part :: rest) = " " ++ (part.oneLine ++ spaced rest) := by
        simp [spaced, String.append_assoc]
      rw [hcons, ih, List.map_cons, List.map_cons, List.map_cons, String.intercalate_cons_cons,
        String.append_assoc]
  rw [htext, ← List.flatten_cons]
  exact spaces (List.forall₂_map_left_iff.2 (.cons hhead hparts)) (by simp)

/-- A text in parentheses, if they are needed, with fields behind them. -/
theorem parens {d : Doc} (h : Spelt d.oneLine ts) {needed : Bool} {fields : List String}
    (hfields : fields.all isSmall = true) (hneeded : fields = [] ∨ needed = true) :
    Spelt ((Elm.parens needed d).oneLine ++ lookups fields)
      (enclosed needed ts ++ behind fields) := by
  rw [oneLine_parens, enclosed]
  cases needed with
  | false =>
    obtain rfl := hneeded.resolve_right Bool.false_ne_true
    simpa [lookups, behind] using h
  | true =>
    refine ⟨fun cs => by simp [NoPoint], fun {cs} hcs => ?_⟩
    have htext : ("(" ++ d.oneLine ++ ")" ++ lookups fields).toList ++ cs =
        '(' :: (d.oneLine.toList ++ ')' :: ((lookups fields).toList ++ cs)) := by simp
    rw [if_pos rfl, if_pos rfl, htext, lexemes_mark rfl (by decide) (.inl (h.opens _)),
      h.lexemes (boundary_cons (by decide) _), lexemes_mark rfl (by decide) (.inr (.inl rfl)),
      lexemes_lookups hfields hcs]
    simp

/-- Items in brackets, up to the closing one. -/
theorem lexemes_sequence {opening closing : String} {mark : Mark}
    (hopening : ∀ {cs}, NoPoint cs →
      Elm.lexemes (opening.toList ++ cs) = .mark mark :: Elm.lexemes cs)
    (hclosing : ∀ cs, NoPoint (closing.toList ++ cs)) {docs : List Doc} {tss : List (List Lexeme)}
    (h : List.Forall₂ (fun d ts => Spelt d.oneLine ts) docs tss) (cs : List Char) :
    Elm.lexemes ((sequence opening docs closing).oneLine.toList ++ cs) =
      .mark mark :: ([.mark .comma].intercalate tss ++ Elm.lexemes (closing.toList ++ cs)) := by
  rw [oneLine_sequence]
  by_cases hne : docs = []
  · subst hne
    cases h
    rw [if_pos rfl, String.toList_append, List.append_assoc, hopening (hclosing cs)]
    rfl
  · have hitems := commas (List.forall₂_map_left_iff.2 h) (by simpa using hne)
    have htext : (opening ++ " " ++ ", ".intercalate (docs.map Doc.oneLine) ++ " " ++
        closing).toList ++ cs = opening.toList ++ ' ' ::
          ((", ".intercalate (docs.map Doc.oneLine)).toList ++ ' ' :: (closing.toList ++ cs)) := by
      simp
    rw [if_neg hne, htext, hopening (by rintro ⟨⟩), lexemes_space (hitems.opens _),
      hitems.lexemes (boundary_cons (by decide) _), lexemes_space (hclosing cs)]

/-- Items in brackets, with something right behind the closing one. -/
theorem bracketed {opening closing tail : String} {c : Char} {mark : Mark}
    (hopening : opening.toList = [c]) (hmark : Token.ofRun [c] = .mark mark)
    (hc : (c != '\x22' && !isBlank c && !isWordChar c && !isMarkChar c) = true)
    (hcloses : ∀ cs, NoPoint (closing.toList ++ cs)) {docs : List Doc}
    {tss : List (List Lexeme)} (h : List.Forall₂ (fun d ts => Spelt d.oneLine ts) docs tss)
    (htail : ∀ {cs}, Boundary cs →
      Elm.lexemes (closing.toList ++ (tail.toList ++ cs)) = us ++ Elm.lexemes cs) :
    Spelt ((sequence opening docs closing).oneLine ++ tail)
      (.mark mark :: ([.mark .comma].intercalate tss ++ us)) := by
  have hopens : ∀ cs, NoPoint (opening.toList ++ cs) := by
    rw [hopening]
    rintro cs ⟨⟩
    exact absurd hc (by decide)
  have hlexeme : ∀ {cs}, NoPoint cs →
      Elm.lexemes (opening.toList ++ cs) = .mark mark :: Elm.lexemes cs := by
    intro cs hcs
    rw [hopening]
    exact lexemes_mark hmark hc (.inl hcs)
  refine ⟨fun cs => ?_, fun {cs} hcs => ?_⟩
  · rw [oneLine_sequence]
    split
    · simpa using hopens (closing.toList ++ (tail.toList ++ cs))
    · simpa using hopens (' ' :: ((", ".intercalate (docs.map Doc.oneLine)).toList ++
        ' ' :: (closing.toList ++ (tail.toList ++ cs))))
  · rw [String.toList_append, List.append_assoc, lexemes_sequence hlexeme hcloses h, htail hcs]
    simp

/-- A function: its parameters and its body. -/
theorem lambda {params : List Doc} {body : Doc}
    (hparams : Spelt (" ".intercalate (params.map Doc.oneLine)) ts)
    (hbody : Spelt body.oneLine us) :
    Spelt (Elm.spread (Doc.text "\\" ++ Doc.join (.text " ") params ++ .text " ->") [body]).oneLine
      (.mark .backslash :: (ts ++ .mark .arrow :: us)) := by
  have htext : ∀ cs, (Elm.spread (Doc.text "\\" ++ Doc.join (.text " ") params ++ .text " ->")
      [body]).oneLine.toList ++ cs = '\\' :: ((" ".intercalate (params.map Doc.oneLine)).toList ++
        ' ' :: '-' :: '>' :: ' ' :: (body.oneLine.toList ++ cs)) := by
    intro cs
    rw [oneLine_spread, Doc.oneLine_append, Doc.oneLine_append, Doc.oneLine_join]
    simp [Doc.oneLine, spaced]
  refine ⟨fun cs => by rw [htext]; simp [NoPoint], fun {cs} hcs => ?_⟩
  rw [htext, lexemes_mark rfl (by decide) (.inl (hparams.opens _)),
    hparams.lexemes (boundary_cons (by decide) _), lexemes_arrow (hbody.opens cs),
    hbody.lexemes hcs]
  simp

/-- A function that a value is sent through, with the operator before it. -/
theorem stage (h : Spelt s ts) : Spelt ("|> " ++ s) (.mark .pipe :: ts) := by
  refine ⟨fun cs => by simp [NoPoint], fun {cs} hcs => ?_⟩
  have htext : ("|> " ++ s).toList ++ cs = '|' :: '>' :: ' ' :: (s.toList ++ cs) := by simp
  rw [htext, ← lexemes_space (by rintro ⟨⟩), lexemes_pipe (h.opens cs), h.lexemes hcs]
  rfl

/-- A field of a record. -/
theorem field {name : String} (hname : isSmall name = true) (h : Spelt s ts) :
    Spelt (name ++ " = " ++ s) (.word name :: .mark .equals :: ts) := by
  have hword : Spelt name [.word name] := .name (isQualifiedName_of_isSmall hname)
  have htext : ∀ cs, (name ++ " = " ++ s).toList ++ cs =
      name.toList ++ ' ' :: '=' :: ' ' :: (s.toList ++ cs) := by simp
  refine ⟨fun cs => htext cs ▸ hword.opens _, fun {cs} hcs => ?_⟩
  rw [htext, hword.lexemes (boundary_cons (by decide) _), lexemes_equals (h.opens cs),
    h.lexemes hcs]
  rfl

end Spelt

/-! ## Printed expressions -/

theorem spelt_wildcard : Spelt "_" [.word "_"] := by
  refine ⟨fun cs => by simp [NoPoint], fun {cs} hcs => ?_⟩
  have htoken : IsToken "_" := isToken_of_isIdentifier (by decide)
  rw [lexemes_word htoken hcs]
  rfl

/-- A constructor is printed like what is applied. -/
theorem oneLine_ctor (name : String) (arguments : List Pattern) :
    (Doc.text name ++ Doc.concat (patternDocs arguments)).oneLine =
      (spread (.text name) (arguments.map (Pattern.toDoc true))).oneLine := by
  have hdocs : (patternDocs arguments).map Doc.oneLine =
      (arguments.map (Pattern.toDoc true)).map fun d => " " ++ d.oneLine := by
    induction arguments with
    | nil => rw [patternDocs]; rfl
    | cons p rest ih => rw [patternDocs, List.map_cons, ih, Doc.oneLine_append]; rfl
  rw [Doc.oneLine_append, Doc.oneLine_concat, oneLine_spread, spaced, hdocs]

mutual

theorem Pattern.spelt : ∀ (p : Pattern), p.isProper = true → Spelt (p.toDoc true).oneLine p.spell
  | .var name, h => by
    rw [Pattern.toDoc, Pattern.spell]
    exact .name (isQualifiedName_of_isSmall h)
  | .wildcard, _ => by
    rw [Pattern.toDoc, Pattern.spell]
    exact spelt_wildcard
  | .ctor name arguments, h => by
    obtain ⟨hname, harguments⟩ := Bool.and_eq_true_iff.1 h
    have hword : Spelt name [.word name] :=
      .name (isQualifiedName_of_all_isCapital (by simp [pieces, split_ne_nil]) hname)
    have hspelt := patternDocs_spelt arguments harguments
    cases arguments with
    | nil =>
      rw [Pattern.toDoc, Pattern.spell]
      exact hword
    | cons first rest =>
      have hspread : Spelt (spread (.text name) ((first :: rest).map (Pattern.toDoc true))).oneLine
          (.word name :: (patternSpellings (first :: rest)).flatten) :=
        @Spelt.spread [.word name] (.text name) _ _ hword (List.forall₂_map_left_iff.2 hspelt)
      rw [← oneLine_ctor] at hspread
      have hparens := @Spelt.parens _ _ hspread true [] rfl (.inl rfl)
      rw [Pattern.toDoc, Pattern.spell]
      · simpa [lookups, behind] using hparens
      · exact List.cons_ne_nil first rest

theorem patternDocs_spelt : ∀ (ps : List Pattern), patternsAreProper ps = true →
    List.Forall₂ (fun p ts => Spelt (p.toDoc true).oneLine ts) ps (patternSpellings ps)
  | [], _ => by rw [patternSpellings]; exact .nil
  | p :: rest, h => by
    obtain ⟨hp, hrest⟩ := Bool.and_eq_true_iff.1 h
    rw [patternSpellings]
    exact .cons (p.spelt hp) (patternDocs_spelt rest hrest)

end

/-- What fields stand behind is in an atomic place, where parentheses are needed. -/
theorem needed_of_atomic {fields : List String} {prec : Prec} (h : fields = [] ∨ prec = .atomic)
    {level : Nat} (hlevel : level < 3) :
    fields = [] ∨ decide (prec.level > level) = true := by
  refine h.imp_right ?_
  rintro rfl
  exact decide_eq_true hlevel

mutual

/-- **The text of an expression in one line has the lexemes of the expression.** -/
theorem Expr.spelt : ∀ (e : Expr) (prec : Prec) (fields : List String), e.isProper = true →
    fields.all isSmall = true → (fields = [] ∨ prec = .atomic) →
    Spelt ((e.toDoc prec).oneLine ++ lookups fields) (e.spell prec fields)
  | .var name, prec, fields, h, hfields, _ => by
    rw [Expr.toDoc, Expr.spell]
    exact .word (isWordFor_path h hfields)
  | .string s, prec, fields, _, hfields, _ => by
    rw [Expr.toDoc, Expr.spell]
    have htext : ∀ cs, ((Doc.text (Json.quote s)).oneLine ++ lookups fields).toList ++ cs =
        (Json.quote s).toList ++ ((lookups fields).toList ++ cs) := by simp [Doc.oneLine]
    refine ⟨fun cs => by rw [htext]; simp [NoPoint, Json.quote], fun {cs} hcs => ?_⟩
    rw [htext, lexemes_quote, stray_lookups hfields hcs]
    rfl
  | .int n, prec, fields, h, hfields, _ => by
    obtain ⟨k, rfl⟩ := Int.eq_ofNat_of_zero_le (of_decide_eq_true h)
    rw [Expr.toDoc, Expr.spell]
    show Spelt (toString k ++ lookups fields) _
    split
    · next hnil =>
      subst hnil
      rw [append_lookups_nil]
      exact .word (isWordFor_toString k)
    · next hne =>
      have htoken := isToken_append (isToken_toString k) (chars_lookups hfields)
      refine ⟨fun cs => ?_, fun {cs} hcs => ?_⟩
      · have hpoint := (head_toString k (lookups fields ++ String.ofList cs)).2
        simpa [String.append_assoc] using hpoint
      · rw [lexemes_word htoken hcs, ofRun_toString_lookups k hne hfields]
        rfl
  | .app function arguments, prec, fields, h, hfields, hplace => by
    obtain ⟨hfunction, harguments⟩ := Bool.and_eq_true_iff.1 h
    have hhead := function.spelt .atomic [] hfunction rfl (.inl rfl)
    have hparts := exprDocs_spelt .atomic arguments (Bool.and_eq_true_iff.1 harguments).2
    rw [append_lookups_nil] at hhead
    rw [Expr.toDoc, Expr.spell]
    exact (hhead.spread hparts).parens hfields (needed_of_atomic hplace (by decide))
  | .lambda params body, prec, fields, h, hfields, hplace => by
    obtain ⟨hbody, hparams⟩ := Bool.and_eq_true_iff.1 h
    obtain ⟨hne, hparams⟩ := Bool.and_eq_true_iff.1 hparams
    have hbody := body.spelt .top [] hbody rfl (.inl rfl)
    rw [append_lookups_nil] at hbody
    rw [Expr.toDoc, Expr.spell]
    refine Spelt.parens (Spelt.lambda ?_ hbody) hfields (needed_of_atomic hplace (by decide))
    rw [List.map_map]
    exact .spaces (List.forall₂_map_left_iff.2 (patternDocs_spelt params hparams))
      (by simpa using hne)
  | .list items, prec, fields, h, hfields, _ => by
    have hitems := exprDocs_spelt .top items h
    rw [Expr.toDoc, Expr.spell]
    refine .bracketed (c := '[') rfl rfl (by decide) (by simp [NoPoint]) hitems fun {cs} hcs => ?_
    rw [List.cons_append, ← stray_lookups hfields hcs]
    exact lexemes_rightBracket _
  | .tuple items, prec, fields, h, hfields, _ => by
    have hitems := exprDocs_spelt .top items (Bool.and_eq_true_iff.1 h).2
    rw [Expr.toDoc, Expr.spell]
    refine .bracketed (c := '(') rfl rfl (by decide) (by simp [NoPoint]) hitems fun {cs} hcs => ?_
    rw [List.cons_append, ← lexemes_lookups hfields hcs]
    exact lexemes_mark rfl (by decide) (.inr (.inl rfl))
  | .record entries, prec, fields, h, hfields, _ => by
    have hentries := fieldDocs_spelt entries h
    rw [Expr.toDoc, Expr.spell]
    refine .bracketed (c := '\x7b') rfl rfl (by decide) (by simp [NoPoint]) hentries
      fun {cs} hcs => ?_
    rw [List.cons_append, ← lexemes_lookups hfields hcs]
    exact lexemes_mark rfl (by decide) (.inr (.inr rfl))
  | .access subject field, prec, fields, h, hfields, _ => by
    obtain ⟨hsubject, hfield⟩ := Bool.and_eq_true_iff.1 h
    have hall : (field :: fields).all isSmall = true := by rw [List.all_cons, hfield, hfields]; rfl
    have hspelt := subject.spelt .atomic (field :: fields) hsubject hall (.inr rfl)
    rw [Expr.toDoc, Expr.spell, Doc.oneLine_append]
    rwa [lookups_cons, ← String.append_assoc] at hspelt
  | .pipe head stages, prec, fields, h, hfields, hplace => by
    obtain ⟨hhead, hstages⟩ := Bool.and_eq_true_iff.1 h
    have hhead := head.spelt .pipe [] hhead rfl (.inl rfl)
    have hparts := exprDocs_spelt .pipe stages (Bool.and_eq_true_iff.1 hstages).2
    rw [append_lookups_nil] at hhead
    have hstages : List.Forall₂ (fun d ts => Spelt d.oneLine ts)
        ((exprDocs .pipe stages).map (Doc.text "|> " ++ ·))
        ((spellings .pipe stages).map (.mark .pipe :: ·)) := by
      refine List.forall₂_map_left_iff.2 (List.forall₂_map_right_iff.2 ?_)
      refine hparts.imp fun d ts hd => ?_
      rw [Doc.oneLine_append]
      exact hd.stage
    rw [Expr.toDoc, Expr.spell, List.flatMap_def]
    exact (hhead.spread hstages).parens hfields (needed_of_atomic hplace (by decide))

theorem exprDocs_spelt (prec : Prec) : ∀ (es : List Expr), exprsAreProper es = true →
    List.Forall₂ (fun d ts => Spelt d.oneLine ts) (exprDocs prec es) (spellings prec es)
  | [], _ => by rw [exprDocs, spellings]; exact .nil
  | e :: rest, h => by
    obtain ⟨he, hrest⟩ := Bool.and_eq_true_iff.1 h
    have hspelt := e.spelt prec [] he rfl (.inl rfl)
    rw [append_lookups_nil] at hspelt
    rw [exprDocs, spellings]
    exact .cons hspelt (exprDocs_spelt prec rest hrest)

theorem fieldDocs_spelt : ∀ (fields : List (String × Expr)), fieldsAreProper fields = true →
    List.Forall₂ (fun d ts => Spelt d.oneLine ts) (fieldDocs fields) (fieldSpellings fields)
  | [], _ => by rw [fieldDocs, fieldSpellings]; exact .nil
  | (name, e) :: rest, h => by
    obtain ⟨hfield, hrest⟩ := Bool.and_eq_true_iff.1 h
    obtain ⟨hname, he⟩ := Bool.and_eq_true_iff.1 hfield
    have hspelt := e.spelt .top [] he rfl (.inl rfl)
    rw [append_lookups_nil] at hspelt
    rw [fieldDocs, fieldSpellings]
    refine .cons ?_ (fieldDocs_spelt rest hrest)
    rw [Doc.oneLine_append]
    exact hspelt.field hname

end

end ElmWire.Elm
