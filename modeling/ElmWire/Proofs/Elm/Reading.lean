import ElmWire.Proofs.Elm.ExprLexemes

/-!
# What printed expressions say

The lexemes of a printed expression are read with the grammar.  What comes out need not be what was
printed.

* `Expr.isLegible` — no junk is printed: strings have the escapes that they need, and no fields are
  looked up in numbers, strings and lists.
* `Expr.asRead` — what the lexemes say.  Values that are sent through functions are read from the
  left to the right, also where one of the functions is made by sending another value through
  functions; and a field that is looked up in a capitalised name becomes part of the name.
* `Expr.reads_asRead`, `not_reads_of_illegible` — **the text of a legible expression says this, and
  that of any other says nothing**.
-/

set_option autoImplicit false
namespace ElmWire.Elm

open Layout Text OperatorGrammar

/-! ## Legible expressions -/

mutual

/-- Nothing is printed that is no lexeme, with fields behind the expression that are looked up. -/
def Expr.isLegible (fields : List String) : Expr → Bool
  | .var _ => true
  | .string s => isPlain s && fields.isEmpty
  | .int _ => fields.isEmpty
  | .app function arguments => function.isLegible [] && areLegible arguments
  | .lambda _ body => body.isLegible []
  | .list items => areLegible items && fields.isEmpty
  | .tuple items => areLegible items
  | .record entries => fieldsAreLegible entries
  | .access subject field => subject.isLegible (field :: fields)
  | .case _ _ => true
  | .pipe head stages => head.isLegible [] && areLegible stages

/-- All expressions are legible. -/
def areLegible : List Expr → Bool
  | [] => true
  | e :: rest => e.isLegible [] && areLegible rest

/-- All fields of a record are legible. -/
def fieldsAreLegible : List (String × Expr) → Bool
  | [] => true
  | (_, e) :: rest => e.isLegible [] && fieldsAreLegible rest

end

theorem junk_mem_misplaced (fields : List String) : .junk ∈ misplaced fields ↔ fields ≠ [] := by
  fun_cases misplaced fields with
  | case1 => simp
  | case2 fields hne => simpa using hne

theorem junk_notMem_behind (fields : List String) : .junk ∉ behind fields := by
  fun_cases behind fields with
  | case1 => simp
  | case2 fields hne => simp

theorem junk_mem_enclosed (needed : Bool) (ts : List Lexeme) :
    .junk ∈ enclosed needed ts ↔ .junk ∈ ts := by
  cases needed with
  | false => exact Iff.rfl
  | true => simp [enclosed]

/-- Commas are no junk. -/
theorem junk_mem_commas (tss : List (List Lexeme)) :
    .junk ∈ [.mark .comma].intercalate tss ↔ ∃ ts ∈ tss, .junk ∈ ts := by
  induction tss with
  | nil => simp
  | cons ts tss ih =>
    cases tss with
    | nil => simp
    | cons us tss =>
      rw [List.intercalate_cons_cons, List.mem_append, List.mem_append, ih]
      simp

mutual

theorem Pattern.junk_notMem_spell : ∀ p : Pattern, .junk ∉ p.spell
  | .var _ | .wildcard => by simp [Pattern.spell]
  | .ctor name arguments => by
    have harguments := patternSpellings_junk arguments
    rw [Pattern.spell, junk_mem_enclosed]
    simpa using harguments

theorem patternSpellings_junk : ∀ ps : List Pattern, ∀ ts ∈ patternSpellings ps, .junk ∉ ts
  | [] => by simp [patternSpellings]
  | p :: rest => by
    rw [patternSpellings]
    exact List.forall_mem_cons.2 ⟨p.junk_notMem_spell, patternSpellings_junk rest⟩

end

mutual

/-- Junk is printed just where an expression is not legible. -/
theorem Expr.junk_mem_spell : ∀ (e : Expr) (prec : Prec) (fields : List String), e.isProper = true →
    (.junk ∈ e.spell prec fields ↔ e.isLegible fields = false)
  | .var _, _, _, _ => by simp [Expr.spell, Expr.isLegible]
  | .string s, _, fields, _ => by
    rw [Expr.spell, List.mem_cons, junk_mem_misplaced, Expr.isLegible]
    cases isPlain s <;> simp
  | .int _, _, fields, _ => by
    rw [Expr.spell, Expr.isLegible]
    cases fields <;> simp
  | .app function arguments, _, fields, h => by
    obtain ⟨hfunction, harguments⟩ := Bool.and_eq_true_iff.1 h
    have hjunk := spellings_junk .atomic arguments (Bool.and_eq_true_iff.1 harguments).2
    rw [Expr.spell, List.mem_append, junk_mem_enclosed, List.mem_append,
      function.junk_mem_spell .atomic [] hfunction, List.mem_flatten, hjunk, Expr.isLegible,
      Bool.and_eq_false_iff]
    exact or_iff_left (junk_notMem_behind fields)
  | .lambda params body, _, fields, h => by
    have hparams : .junk ∉ (patternSpellings params).flatten := by
      simpa using patternSpellings_junk params
    rw [Expr.spell, List.mem_append, junk_mem_enclosed, Expr.isLegible,
      ← body.junk_mem_spell .top [] (Bool.and_eq_true_iff.1 h).1]
    simp [hparams, junk_notMem_behind]
  | .list items, _, fields, h => by
    have hjunk := spellings_junk .top items h
    rw [Expr.spell, List.mem_cons, List.mem_append, junk_mem_commas, hjunk, List.mem_cons,
      junk_mem_misplaced, Expr.isLegible, Bool.and_eq_false_iff]
    simp
  | .tuple items, _, fields, h => by
    have hjunk := spellings_junk .top items (Bool.and_eq_true_iff.1 h).2
    rw [Expr.spell, List.mem_cons, List.mem_append, junk_mem_commas, hjunk, List.mem_cons,
      Expr.isLegible]
    simp [junk_notMem_behind]
  | .record entries, _, fields, h => by
    have hjunk := fieldSpellings_junk entries h
    rw [Expr.spell, List.mem_cons, List.mem_append, junk_mem_commas, hjunk, List.mem_cons,
      Expr.isLegible]
    simp [junk_notMem_behind]
  | .access subject field, _, fields, h => by
    rw [Expr.spell, Expr.isLegible]
    exact subject.junk_mem_spell .atomic (field :: fields) (Bool.and_eq_true_iff.1 h).1
  | .pipe head stages, _, fields, h => by
    obtain ⟨hhead, hstages⟩ := Bool.and_eq_true_iff.1 h
    have hjunk := spellings_junk .pipe stages (Bool.and_eq_true_iff.1 hstages).2
    rw [Expr.spell, List.mem_append, junk_mem_enclosed, List.mem_append,
      head.junk_mem_spell .pipe [] hhead, List.mem_flatMap, Expr.isLegible,
      Bool.and_eq_false_iff, ← hjunk]
    simp [junk_notMem_behind]

theorem spellings_junk (prec : Prec) : ∀ (es : List Expr), exprsAreProper es = true →
    ((∃ ts ∈ spellings prec es, .junk ∈ ts) ↔ areLegible es = false)
  | [], _ => by simp [spellings, areLegible]
  | e :: rest, h => by
    obtain ⟨he, hrest⟩ := Bool.and_eq_true_iff.1 h
    rw [spellings, List.exists_mem_cons_iff, e.junk_mem_spell prec [] he,
      spellings_junk prec rest hrest, areLegible, Bool.and_eq_false_iff]

theorem fieldSpellings_junk : ∀ (entries : List (String × Expr)), fieldsAreProper entries = true →
    ((∃ ts ∈ fieldSpellings entries, .junk ∈ ts) ↔ fieldsAreLegible entries = false)
  | [], _ => by simp [fieldSpellings, fieldsAreLegible]
  | (name, e) :: rest, h => by
    obtain ⟨hfield, hrest⟩ := Bool.and_eq_true_iff.1 h
    rw [fieldSpellings, List.exists_mem_cons_iff, fieldSpellings_junk rest hrest, fieldsAreLegible,
      Bool.and_eq_false_iff, ← e.junk_mem_spell .top [] (Bool.and_eq_true_iff.1 hfield).2]
    simp

end

/-! ## What is read -/

/-- The value and the functions that it is sent through one by one. -/
def Expr.links : Expr → List Expr
  | .pipe value [stage] => value.links ++ [stage]
  | e => [e]

mutual

/-- What the lexemes of an expression say, with fields behind it that are looked up. -/
def Expr.asRead (fields : List String) : Expr → Expr
  | .var name => .ofPath (pieces '.' name ++ fields)
  | .string s => .string s
  | .int n => .int n
  | .app function arguments =>
    fields.foldl .access (.app (function.asRead []) (areRead arguments))
  | .lambda params body => fields.foldl .access (.lambda params (body.asRead []))
  | .list items => .list (areRead items)
  | .tuple items => fields.foldl .access (.tuple (areRead items))
  | .record entries => fields.foldl .access (.record (fieldsAreRead entries))
  | .access subject field => subject.asRead (field :: fields)
  | .case scrutinee branches => .case scrutinee branches
  | .pipe head stages => fields.foldl .access ((head.asRead []).sentThrough (linksAreRead stages))

/-- What each expression is read as. -/
def areRead : List Expr → List Expr
  | [] => []
  | e :: rest => e.asRead [] :: areRead rest

/-- What each field of a record is read as. -/
def fieldsAreRead : List (String × Expr) → List (String × Expr)
  | [] => []
  | (name, e) :: rest => (name, e.asRead []) :: fieldsAreRead rest

/-- What functions with operators between them are read as.  One that is itself made with operators
is taken apart. -/
def linksAreRead : List Expr → List Expr
  | [] => []
  | e :: rest => (e.asRead []).links ++ linksAreRead rest

end

theorem Expr.links_sentThrough (value : Expr) (stages : List Expr) :
    (value.sentThrough stages).links = value.links ++ stages := by
  induction stages generalizing value with
  | nil => exact (List.append_nil _).symm
  | cons stage rest ih =>
    have hcons : value.sentThrough (stage :: rest) =
        (Expr.pipe value [stage]).sentThrough rest := rfl
    rw [hcons, ih, Expr.links, List.append_assoc, List.singleton_append]

theorem Expr.sentThrough_append (value : Expr) (first second : List Expr) :
    value.sentThrough (first ++ second) = (value.sentThrough first).sentThrough second :=
  List.foldl_append

/-- Is it a value that is sent through functions? -/
def Expr.isPipe : Expr → Bool
  | .pipe _ _ => true
  | _ => false

theorem Expr.links_of_not_isPipe {e : Expr} (h : e.isPipe = false) : e.links = [e] := by
  cases e with
  | pipe head stages => cases h
  | _ => rfl

theorem isPipe_foldl_access (fields : List String) {e : Expr} (h : e.isPipe = false) :
    (fields.foldl Expr.access e).isPipe = false := by
  induction fields generalizing e with
  | nil => exact h
  | cons field rest ih => exact ih rfl

theorem Expr.isPipe_ofPath (path : List String) : (Expr.ofPath path).isPipe = false := by
  rw [Expr.ofPath]
  split
  · rfl
  · exact isPipe_foldl_access _ rfl

/-- What fields are looked up in is read as such a look-up, or as a name. -/
theorem isPipe_asRead_cons (field : String) (fields : List String) : ∀ e : Expr,
    (e.asRead (field :: fields)).isPipe = false
  | .var _ => by rw [Expr.asRead]; exact Expr.isPipe_ofPath _
  | .string _ | .int _ | .list _ | .case _ _ => by rw [Expr.asRead]; rfl
  | .app _ _ | .lambda _ _ | .tuple _ | .record _ | .pipe _ _ => by
    rw [Expr.asRead, List.foldl_cons]
    exact isPipe_foldl_access fields rfl
  | .access subject inner => by
    rw [Expr.asRead]
    exact isPipe_asRead_cons inner (field :: fields) subject

theorem length_areRead (es : List Expr) : (areRead es).length = es.length := by
  induction es with
  | nil => rfl
  | cons e rest ih => rw [areRead, List.length_cons, ih, List.length_cons]

/-! ## Derivations -/

/-- The lexemes do not go on with fields that are looked up. -/
def NoFields (ts : List Lexeme) : Prop := takeFields ts = ([], ts)

theorem takeFields_behind (fields : List String) {us : List Lexeme} (h : NoFields us) :
    takeFields (behind fields ++ us) = (fields, us) := by
  fun_cases behind fields with
  | case1 => exact h
  | case2 fields hne => rfl

/-- Printed expressions do not start with fields that are looked up. -/
theorem Expr.noFields_spell : ∀ (e : Expr) (prec : Prec) (fields : List String) (us : List Lexeme),
    e.isProper = true → NoFields (e.spell prec fields ++ us)
  | .var _, _, _, _, _ => by rw [Expr.spell]; rfl
  | .string s, _, _, _, _ => by
    rw [Expr.spell]
    cases isPlain s <;> rfl
  | .int _, _, fields, _, _ => by
    rw [Expr.spell]
    cases fields <;> rfl
  | .app function arguments, prec, fields, us, h => by
    rw [Expr.spell, enclosed]
    split
    · rfl
    · rw [List.append_assoc, List.append_assoc]
      exact function.noFields_spell .atomic [] _ (Bool.and_eq_true_iff.1 h).1
  | .lambda _ _, prec, _, _, _ => by
    rw [Expr.spell, enclosed]
    split <;> rfl
  | .list _, _, _, _, _ | .tuple _, _, _, _, _ | .record _, _, _, _, _ => by rw [Expr.spell]; rfl
  | .access subject field, _, fields, us, h => by
    rw [Expr.spell]
    exact subject.noFields_spell .atomic (field :: fields) us (Bool.and_eq_true_iff.1 h).1
  | .pipe head stages, prec, fields, us, h => by
    rw [Expr.spell, enclosed]
    split
    · rfl
    · rw [List.append_assoc, List.append_assoc]
      exact head.noFields_spell .pipe [] _ (Bool.and_eq_true_iff.1 h).1

/-! ### Patterns -/

theorem Pattern.ofWord?_small {name : String} (h : isSmall name = true) :
    Pattern.ofWord? name = some (.var name) := by
  have hne : name ≠ "_" := by
    rintro rfl
    exact absurd h (by decide)
  rw [Pattern.ofWord?, if_neg hne, if_pos h]

theorem Pattern.ofWord?_constructor {name : String} (h : isCapitalised name = true) :
    Pattern.ofWord? name = some (.ctor name []) := by
  have hsmall : ¬isSmall name = true := by
    intro hsmall
    rw [isCapitalised, pieces_of_isIdentifier (isIdentifier_of_isSmall hsmall), List.all_cons,
      isCapital_of_isSmall hsmall] at h
    cases h
  have hne : name ≠ "_" := by
    rintro rfl
    exact absurd h (by decide)
  rw [Pattern.ofWord?, if_neg hne, if_neg hsmall, if_pos h]

mutual

theorem Pattern.derives : ∀ (p : Pattern) (us : List Lexeme), p.isProper = true →
    Derives (p.spell ++ us) (.pattern true p) us
  | .var name, us, h => by
    rw [Pattern.spell]
    exact .simple (Pattern.ofWord?_small h) us
  | .wildcard, us, _ => by
    rw [Pattern.spell]
    exact .simple rfl us
  | .ctor name arguments, us, h => by
    obtain ⟨hname, harguments⟩ := Bool.and_eq_true_iff.1 h
    have hderives := patterns_derive arguments (.mark .rightParen :: us) harguments
    rw [Pattern.spell]
    cases arguments with
    | nil => exact .simple (Pattern.ofWord?_constructor hname) us
    | cons first rest =>
      refine .patternGroup (.ctor hname ?_)
      simpa using hderives

theorem patterns_derive : ∀ (ps : List Pattern) (us : List Lexeme), patternsAreProper ps = true →
    Derives ((patternSpellings ps).flatten ++ us) (.patterns ps) us
  | [], us, _ => by
    rw [patternSpellings]
    exact .noPatterns us
  | p :: rest, us, h => by
    obtain ⟨hp, hrest⟩ := Bool.and_eq_true_iff.1 h
    rw [patternSpellings, List.flatten_cons, List.append_assoc]
    exact .patterns (p.derives _ hp) (patterns_derive rest us hrest)

end

/-! ### Expressions -/

/-- The lexemes of the expression say what it is read as, in each of the places of the printer.
Between operators, the value and the functions of a pipe become links of the chain around it. -/
structure Expr.Derivable (e : Expr) : Prop where
  atom : ∀ {fields us}, fields.all isSmall = true → e.isLegible fields = true → NoFields us →
    Derives (e.spell .atomic fields ++ us) (.expr .atom (e.asRead fields)) us
  chain : ∀ {es us rest}, e.isLegible [] = true → NoFields us → Derives us (.stages es) rest →
    ∃ value stages ts, e.asRead [] = value.sentThrough stages ∧
      (e.asRead []).links = value :: stages ∧
      Derives (e.spell .pipe [] ++ us) (.expr .application value) ts ∧
      Derives ts (.stages (stages ++ es)) rest
  any : ∀ {us}, e.isLegible [] = true → NoFields us →
    Derives (e.spell .top [] ++ us) (.expr .any (e.asRead [])) us

/-- What is no pipe is a single link. -/
theorem Expr.Derivable.of_application {e : Expr} (hpipe : (e.asRead []).isPipe = false)
    (hatom : ∀ {fields us}, fields.all isSmall = true → e.isLegible fields = true → NoFields us →
      Derives (e.spell .atomic fields ++ us) (.expr .atom (e.asRead fields)) us)
    (happlication : ∀ {us}, e.isLegible [] = true → NoFields us →
      Derives (e.spell .pipe [] ++ us) (.expr .application (e.asRead [])) us)
    (hany : ∀ {us}, e.isLegible [] = true → NoFields us →
      Derives (e.spell .top [] ++ us) (.expr .any (e.asRead [])) us) : e.Derivable where
  atom := hatom
  chain hlegible hus hstages :=
    ⟨_, [], _, rfl, links_of_not_isPipe hpipe, happlication hlegible hus, hstages⟩
  any := hany

/-- What needs no parentheses anywhere is read in the same way in all places. -/
theorem Expr.Derivable.of_atom {e : Expr} (hpipe : (e.asRead []).isPipe = false)
    (hspell : ∀ prec, e.spell prec [] = e.spell .atomic [])
    (hatom : ∀ {fields us}, fields.all isSmall = true → e.isLegible fields = true → NoFields us →
      Derives (e.spell .atomic fields ++ us) (.expr .atom (e.asRead fields)) us) :
    e.Derivable := by
  refine .of_application hpipe hatom (fun hlegible hus => ?_) fun hlegible hus => ?_
  · rw [hspell]
    exact .atom (hatom rfl hlegible hus)
  · rw [hspell]
    exact .operand (.atom (hatom rfl hlegible hus))

/-- An expression in parentheses, with fields behind them. -/
theorem derives_enclosed {ts us : List Lexeme} {e : Expr} (fields : List String)
    (h : Derives (ts ++ .mark .rightParen :: (behind fields ++ us)) (.expr .any e)
      (.mark .rightParen :: (behind fields ++ us)))
    (hus : NoFields us) :
    Derives (enclosed true ts ++ behind fields ++ us)
      (.expr .atom (fields.foldl .access e)) us := by
  have htext : enclosed true ts ++ behind fields ++ us =
      .mark .leftParen :: (ts ++ .mark .rightParen :: (behind fields ++ us)) := by simp [enclosed]
  rw [htext]
  exact .group (.lastItem h) (takeFields_behind fields hus)

theorem derives_sentThrough {ts us rest : List Lexeme} {value : Expr} {stages : List Expr}
    (h : Derives ts (.expr .application value) us) (hstages : Derives us (.stages stages) rest) :
    Derives ts (.expr .any (value.sentThrough stages)) rest := by
  cases stages with
  | nil =>
    cases hstages with
    | noStages => exact .operand h
  | cons stage rest => exact .pipe h hstages

theorem arguments_derive {es : List Expr} (h : ∀ e ∈ es, e.Derivable)
    (hproper : exprsAreProper es = true) (hlegible : areLegible es = true) {us : List Lexeme}
    (hus : NoFields us) :
    NoFields ((spellings .atomic es).flatten ++ us) ∧
      Derives ((spellings .atomic es).flatten ++ us) (.arguments (areRead es)) us := by
  induction es with
  | nil => exact ⟨hus, .noArguments us⟩
  | cons e rest ih =>
    obtain ⟨he, hrest⟩ := List.forall_mem_cons.1 h
    obtain ⟨hpe, hprest⟩ := Bool.and_eq_true_iff.1 hproper
    obtain ⟨hle, hlrest⟩ := Bool.and_eq_true_iff.1 hlegible
    obtain ⟨hnofields, hderives⟩ := ih hrest hprest hlrest
    rw [spellings, List.flatten_cons, List.append_assoc]
    exact ⟨e.noFields_spell .atomic [] _ hpe, .argument (he.atom rfl hle hnofields) hderives⟩

theorem items_derive {closing : Mark} {es : List Expr} (h : ∀ e ∈ es, e.Derivable)
    (hlegible : areLegible es = true) (us : List Lexeme) :
    Derives ([.mark .comma].intercalate (spellings .top es) ++ .mark closing :: us)
      (.items closing (areRead es)) us := by
  induction es with
  | nil => exact .noItems closing us
  | cons e rest ih =>
    obtain ⟨he, hrest⟩ := List.forall_mem_cons.1 h
    obtain ⟨hle, hlrest⟩ := Bool.and_eq_true_iff.1 hlegible
    have hitems := ih hrest hlrest
    cases rest with
    | nil =>
      rw [spellings, spellings, List.intercalate_singleton]
      exact .lastItem (he.any hle rfl)
    | cons next rest =>
      have hcons : spellings .top (e :: next :: rest) =
          e.spell .top [] :: next.spell .top [] :: spellings .top rest := rfl
      rw [hcons, List.intercalate_cons_cons, List.append_assoc, List.append_assoc]
      exact .item (he.any hle rfl) hitems

theorem entries_derive {entries : List (String × Expr)} (h : ∀ entry ∈ entries, entry.2.Derivable)
    (hproper : fieldsAreProper entries = true) (hlegible : fieldsAreLegible entries = true)
    (us : List Lexeme) :
    Derives ([.mark .comma].intercalate (fieldSpellings entries) ++ .mark .rightBrace :: us)
      (.fields (fieldsAreRead entries)) us := by
  induction entries with
  | nil => exact .noFields us
  | cons entry rest ih =>
    obtain ⟨he, hrest⟩ := List.forall_mem_cons.1 h
    obtain ⟨hpe, hprest⟩ := Bool.and_eq_true_iff.1 hproper
    obtain ⟨hle, hlrest⟩ := Bool.and_eq_true_iff.1 hlegible
    have hname := (Bool.and_eq_true_iff.1 hpe).1
    have hentries := ih hrest hprest hlrest
    cases rest with
    | nil =>
      rw [fieldSpellings, fieldSpellings, List.intercalate_singleton]
      exact .lastField hname (he.any hle rfl)
    | cons next rest =>
      have hcons : fieldSpellings (entry :: next :: rest) =
          (.word entry.1 :: .mark .equals :: entry.2.spell .top []) ::
            (.word next.1 :: .mark .equals :: next.2.spell .top []) :: fieldSpellings rest := rfl
      rw [hcons, List.intercalate_cons_cons, List.append_assoc, List.append_assoc]
      exact .field hname (he.any hle rfl) hentries

/-- Functions with operators before them, in front of more of them. -/
theorem stages_derive {es : List Expr} (h : ∀ e ∈ es, e.Derivable) (hlegible : areLegible es = true)
    {others : List Expr} {us rest : List Lexeme} (hus : NoFields us)
    (hothers : Derives us (.stages others) rest) :
    NoFields ((spellings .pipe es).flatMap (.mark .pipe :: ·) ++ us) ∧
      Derives ((spellings .pipe es).flatMap (.mark .pipe :: ·) ++ us)
        (.stages (linksAreRead es ++ others)) rest := by
  induction es with
  | nil => exact ⟨hus, hothers⟩
  | cons e es ih =>
    obtain ⟨he, hes⟩ := List.forall_mem_cons.1 h
    obtain ⟨hle, hles⟩ := Bool.and_eq_true_iff.1 hlegible
    obtain ⟨hnofields, hderives⟩ := ih hes hles
    obtain ⟨value, stages, ts, -, hlinks, hvalue, hstages⟩ := he.chain hle hnofields hderives
    rw [spellings, List.flatMap_cons, linksAreRead, hlinks, List.append_assoc]
    refine ⟨rfl, ?_⟩
    rw [List.append_assoc, List.cons_append]
    exact .stage hvalue hstages

theorem application_derives {function : Expr} {arguments : List Expr}
    (hfunction : function.Derivable) (harguments : ∀ e ∈ arguments, e.Derivable)
    (hproper : (!arguments.isEmpty && exprsAreProper arguments) = true)
    (hlegible : (Expr.app function arguments).isLegible [] = true) {us : List Lexeme}
    (hus : NoFields us) :
    Derives (function.spell .atomic [] ++ (spellings .atomic arguments).flatten ++ us)
      (.expr .application (.app (function.asRead []) (areRead arguments))) us := by
  obtain ⟨hne, hproper⟩ := Bool.and_eq_true_iff.1 hproper
  obtain ⟨hlfunction, hlarguments⟩ := Bool.and_eq_true_iff.1 hlegible
  obtain ⟨hnofields, hderives⟩ := arguments_derive harguments hproper hlarguments hus
  rw [List.append_assoc]
  cases arguments with
  | nil => cases hne
  | cons first rest => exact .apply (hfunction.atom rfl hlfunction hnofields) hderives

theorem lambda_derives {params : List Pattern} {body : Expr} (hbody : body.Derivable)
    (hparams : (!params.isEmpty && patternsAreProper params) = true)
    (hlegible : body.isLegible [] = true) {us : List Lexeme} (hus : NoFields us) :
    Derives (.mark .backslash ::
        ((patternSpellings params).flatten ++ .mark .arrow :: body.spell .top []) ++ us)
      (.expr .any (.lambda params (body.asRead []))) us := by
  obtain ⟨hne, hparams⟩ := Bool.and_eq_true_iff.1 hparams
  have hderives := patterns_derive params (.mark .arrow :: (body.spell .top [] ++ us)) hparams
  rw [List.cons_append, List.append_assoc, List.cons_append]
  cases params with
  | nil => cases hne
  | cons first rest => exact .lambda hderives (hbody.any hlegible hus)

/-- The links of a pipe, in front of more of them: first those of its value, then those of the
functions that the value is sent through. -/
theorem chain_derives {head : Expr} {stages : List Expr} (hhead : head.Derivable)
    (hstages : ∀ e ∈ stages, e.Derivable)
    (hlegible : (Expr.pipe head stages).isLegible [] = true) {others : List Expr}
    {us rest : List Lexeme} (hus : NoFields us) (hothers : Derives us (.stages others) rest) :
    ∃ value links ts,
      (head.asRead []).sentThrough (linksAreRead stages) = value.sentThrough links ∧
      ((head.asRead []).sentThrough (linksAreRead stages)).links = value :: links ∧
      Derives (head.spell .pipe [] ++ (spellings .pipe stages).flatMap (.mark .pipe :: ·) ++ us)
        (.expr .application value) ts ∧
      Derives ts (.stages (links ++ others)) rest := by
  obtain ⟨hlhead, hlstages⟩ := Bool.and_eq_true_iff.1 hlegible
  obtain ⟨hnofields, hderives⟩ := stages_derive hstages hlstages hus hothers
  obtain ⟨value, links, ts, hread, hlinks, hvalue, hrest⟩ := hhead.chain hlhead hnofields hderives
  refine ⟨value, links ++ linksAreRead stages, ts, ?_, ?_, ?_, ?_⟩
  · rw [hread, Expr.sentThrough_append]
  · rw [Expr.links_sentThrough, hlinks, List.cons_append]
  · rwa [List.append_assoc]
  · rwa [List.append_assoc]

theorem pipe_derives {head : Expr} {stages : List Expr} (hhead : head.Derivable)
    (hstages : ∀ e ∈ stages, e.Derivable)
    (hlegible : (Expr.pipe head stages).isLegible [] = true) {us : List Lexeme}
    (hus : NoFields us) :
    Derives (head.spell .pipe [] ++ (spellings .pipe stages).flatMap (.mark .pipe :: ·) ++ us)
      (.expr .any ((head.asRead []).sentThrough (linksAreRead stages))) us := by
  obtain ⟨value, links, ts, hread, -, hvalue, hrest⟩ :=
    chain_derives hhead hstages hlegible hus (.noStages us)
  rw [List.append_nil] at hrest
  rw [hread]
  exact derives_sentThrough hvalue hrest

mutual

theorem Expr.derivable : ∀ (e : Expr), e.isProper = true → e.Derivable
  | .var name, h => by
    refine .of_atom (by rw [Expr.asRead]; exact Expr.isPipe_ofPath _)
      (fun _ => by rw [Expr.spell, Expr.spell]) fun {fields us} hfields _ _ => ?_
    rw [Expr.spell, Expr.asRead]
    exact .word (isWordFor_path h hfields).ofWord? us
  | .string s, _ => by
    refine .of_atom (by rw [Expr.asRead]; rfl) (fun _ => by rw [Expr.spell, Expr.spell])
      fun {fields us} _ hlegible _ => ?_
    obtain ⟨hplain, hfields⟩ := Bool.and_eq_true_iff.1 hlegible
    obtain rfl := List.isEmpty_iff.1 hfields
    rw [Expr.spell, if_pos hplain, Expr.asRead]
    exact .string s us
  | .int n, h => by
    obtain ⟨k, rfl⟩ := Int.eq_ofNat_of_zero_le (of_decide_eq_true h)
    refine .of_atom (by rw [Expr.asRead]; rfl) (fun _ => by rw [Expr.spell, Expr.spell])
      fun {fields us} _ hlegible _ => ?_
    obtain rfl := List.isEmpty_iff.1 hlegible
    rw [Expr.spell, if_pos rfl, Expr.asRead]
    exact .word (isWordFor_toString k).ofWord? us
  | .app function arguments, h => by
    obtain ⟨hfunction, harguments⟩ := Bool.and_eq_true_iff.1 h
    have hderives := @application_derives function arguments (function.derivable hfunction)
      (exprs_derivable arguments (Bool.and_eq_true_iff.1 harguments).2) harguments
    refine .of_application (by rw [Expr.asRead]; rfl) (fun {fields us} _ hlegible hus => ?_)
      (fun hlegible hus => ?_) fun hlegible hus => ?_
    · rw [Expr.spell, Expr.asRead]
      exact derives_enclosed fields (.operand (hderives hlegible rfl)) hus
    · rw [Expr.spell, Expr.asRead, behind, List.append_nil]
      exact hderives hlegible hus
    · rw [Expr.spell, Expr.asRead, behind, List.append_nil]
      exact .operand (hderives hlegible hus)
  | .lambda params body, h => by
    obtain ⟨hbody, hparams⟩ := Bool.and_eq_true_iff.1 h
    have hderives := @lambda_derives params body (body.derivable hbody) hparams
    refine .of_application (by rw [Expr.asRead]; rfl) (fun {fields us} _ hlegible hus => ?_)
      (fun hlegible hus => ?_) fun hlegible hus => ?_
    · rw [Expr.spell, Expr.asRead]
      exact derives_enclosed fields (hderives hlegible rfl) hus
    · rw [Expr.spell, Expr.asRead]
      exact .atom (derives_enclosed [] (hderives hlegible rfl) hus)
    · rw [Expr.spell, Expr.asRead, behind, List.append_nil]
      exact hderives hlegible hus
  | .list items, h => by
    have hitems := exprs_derivable items h
    refine .of_atom (by rw [Expr.asRead]; rfl) (fun _ => by rw [Expr.spell, Expr.spell])
      fun {fields us} _ hlegible _ => ?_
    obtain ⟨hlitems, hfields⟩ := Bool.and_eq_true_iff.1 hlegible
    obtain rfl := List.isEmpty_iff.1 hfields
    rw [Expr.spell, Expr.asRead, List.cons_append, List.append_assoc]
    exact .list (items_derive hitems hlitems us)
  | .tuple items, h => by
    obtain ⟨hlength, hproper⟩ := Bool.and_eq_true_iff.1 h
    have hitems := exprs_derivable items hproper
    have htuple : ExprGrammar.grouped (areRead items) = .tuple (areRead items) :=
      ExprGrammar.grouped_eq_tuple (by rw [length_areRead]; exact of_decide_eq_true hlength)
    refine .of_atom (by rw [Expr.asRead]; rfl) (fun _ => by rw [Expr.spell, Expr.spell])
      fun {fields us} _ hlegible hus => ?_
    rw [Expr.spell, Expr.asRead, List.cons_append, List.append_assoc, ← htuple]
    exact .group (items_derive hitems hlegible _) (takeFields_behind fields hus)
  | .record entries, h => by
    have hentries := entries_derivable entries h
    refine .of_atom (by rw [Expr.asRead]; rfl) (fun _ => by rw [Expr.spell, Expr.spell])
      fun {fields us} _ hlegible hus => ?_
    rw [Expr.spell, Expr.asRead, List.cons_append, List.append_assoc]
    exact .record (entries_derive hentries h hlegible _) (takeFields_behind fields hus)
  | .access subject field, h => by
    obtain ⟨hsubject, hfield⟩ := Bool.and_eq_true_iff.1 h
    have hinner := subject.derivable hsubject
    refine .of_atom ?_ (fun _ => by rw [Expr.spell, Expr.spell]) fun hfields hlegible hus => ?_
    · rw [Expr.asRead]
      exact isPipe_asRead_cons field [] subject
    · rw [Expr.spell, Expr.asRead]
      refine hinner.atom ?_ hlegible hus
      rw [List.all_cons, hfield, hfields, Bool.true_and]
  | .pipe head stages, h => by
    obtain ⟨hhead, hstages⟩ := Bool.and_eq_true_iff.1 h
    have hinner := head.derivable hhead
    have hparts := exprs_derivable stages (Bool.and_eq_true_iff.1 hstages).2
    refine ⟨fun {fields us} _ hlegible hus => ?_, fun hlegible hus hothers => ?_,
      fun hlegible hus => ?_⟩
    · rw [Expr.spell, Expr.asRead]
      exact derives_enclosed fields (pipe_derives hinner hparts hlegible rfl) hus
    · rw [Expr.spell, Expr.asRead, behind, List.append_nil]
      exact chain_derives hinner hparts hlegible hus hothers
    · rw [Expr.spell, Expr.asRead, behind, List.append_nil]
      exact pipe_derives hinner hparts hlegible hus

theorem exprs_derivable : ∀ (es : List Expr), exprsAreProper es = true → ∀ e ∈ es, e.Derivable
  | [], _ => List.forall_mem_nil _
  | e :: rest, h => by
    obtain ⟨he, hrest⟩ := Bool.and_eq_true_iff.1 h
    exact List.forall_mem_cons.2 ⟨e.derivable he, exprs_derivable rest hrest⟩

theorem entries_derivable : ∀ (entries : List (String × Expr)), fieldsAreProper entries = true →
    ∀ entry ∈ entries, entry.2.Derivable
  | [], _ => List.forall_mem_nil _
  | (name, e) :: rest, h => by
    obtain ⟨hentry, hrest⟩ := Bool.and_eq_true_iff.1 h
    exact List.forall_mem_cons.2
      ⟨e.derivable (Bool.and_eq_true_iff.1 hentry).2, entries_derivable rest hrest⟩

end

/-! ## Texts -/

theorem lexemes_oneLine {e : Expr} (h : e.isProper = true) :
    lexemes (e.toDoc .top).oneLine.toList = e.spell .top [] := by
  have hspelt := (e.spelt .top [] h rfl (.inl rfl)).lexemes boundary_nil
  rw [append_lookups_nil, List.append_nil] at hspelt
  exact hspelt.trans (List.append_nil _)

/-- **The text of a legible expression says what the expression is read as.** -/
theorem Expr.reads_asRead {e : Expr} (h : e.isProper = true) (hlegible : e.isLegible [] = true) :
    Reads (e.toDoc .top).oneLine (e.asRead []) := by
  have hderives := @(e.derivable h).any [] hlegible rfl
  rw [Reads, lexemes_oneLine h]
  refine ⟨fun hjunk => ?_, by rwa [List.append_nil] at hderives⟩
  rw [(e.junk_mem_spell .top [] h).1 hjunk] at hlegible
  cases hlegible

/-- The text of any other expression says nothing. -/
theorem not_reads_of_illegible {e : Expr} (h : e.isProper = true)
    (hlegible : e.isLegible [] = false) (r : Expr) : ¬Reads (e.toDoc .top).oneLine r := by
  rw [Reads, lexemes_oneLine h]
  exact fun hreads => hreads.1 ((e.junk_mem_spell .top [] h).2 hlegible)

end ElmWire.Elm
