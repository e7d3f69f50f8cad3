import ElmWire.Proofs.Elm.ExprGrammar
import ElmWire.Proofs.Elm.Lexeme

/-!
# Reading expressions

The grammar of Elm for expressions without case expressions.  Application binds tightest; then come
values that are sent through functions, from the left to the right; and the body of a function goes
on as far as it can.  So the only thing that may follow an operator and is no application is a
function at the very end.

* `Derives lexemes phrase rest` — the grammar: the lexemes start with a phrase, behind which `rest`
  follows.
* `Derives.unique` — **a text has at most one reading**.
* `Reads text e` — what a text says: it has no junk in it, and its lexemes are an expression.
-/

set_option autoImplicit false
namespace ElmWire.Elm

open Text

/-- The pattern that a word is. -/
def Pattern.ofWord? (w : String) : Option Pattern :=
  if w = "_" then some .wildcard
  else if isSmall w then some (.var w)
  else if isCapitalised w then some (.ctor w [])
  else none

/-- A value that is sent through functions, one after the other. -/
def Expr.sentThrough (value : Expr) (stages : List Expr) : Expr :=
  stages.foldl (fun value stage => .pipe value [stage]) value

namespace OperatorGrammar

open Readings
open ExprGrammar (Place applied grouped)

/-! ## The grammar -/

/-- A part of a text. -/
inductive Phrase where
  | expr (place : Place) (e : Expr)
  /-- The arguments of what is applied. -/
  | arguments (es : List Expr)
  /-- The functions that a value is sent through, each with the operator before it. -/
  | stages (es : List Expr)
  /-- Expressions with commas between them, up to the mark that closes their bracket. -/
  | items (closing : Mark) (es : List Expr)
  /-- Fields with commas between them, up to the closing brace. -/
  | fields (fields : List (String × Expr))
  /-- A pattern; in an `atomic` place a constructor with arguments needs parentheses. -/
  | pattern (atomic : Bool) (p : Pattern)
  | patterns (ps : List Pattern)

/-- The fields that are looked up in what stands before the lexemes. -/
def takeFields : List Lexeme → List String × List Lexeme
  | .fields names :: rest => (names, rest)
  | rest => ([], rest)

/-- The lexemes start with a phrase, and some are left. -/
inductive Derives : List Lexeme → Phrase → List Lexeme → Prop
  | word {w : String} {e : Expr} (h : Expr.ofWord? w = some e) (rest : List Lexeme) :
      Derives (.word w :: rest) (.expr .atom e) rest
  | string (s : String) (rest : List Lexeme) :
      Derives (.string s :: rest) (.expr .atom (.string s)) rest
  | list {es : List Expr} {ts rest : List Lexeme} (h : Derives ts (.items .rightBracket es) rest) :
      Derives (.mark .leftBracket :: ts) (.expr .atom (.list es)) rest
  | group {es : List Expr} {names : List String} {ts us rest : List Lexeme}
      (h : Derives ts (.items .rightParen es) us) (hfields : takeFields us = (names, rest)) :
      Derives (.mark .leftParen :: ts) (.expr .atom (names.foldl .access (grouped es))) rest
  | record {fields : List (String × Expr)} {names : List String} {ts us rest : List Lexeme}
      (h : Derives ts (.fields fields) us) (hfields : takeFields us = (names, rest)) :
      Derives (.mark .leftBrace :: ts) (.expr .atom (names.foldl .access (.record fields))) rest
  | atom {e : Expr} {ts rest : List Lexeme} (h : Derives ts (.expr .atom e) rest) :
      Derives ts (.expr .application e) rest
  | apply {function e : Expr} {es : List Expr} {ts us rest : List Lexeme}
      (h : Derives ts (.expr .atom function) us)
      (harguments : Derives us (.arguments (e :: es)) rest) :
      Derives ts (.expr .application (.app function (e :: es))) rest
  | operand {e : Expr} {ts rest : List Lexeme} (h : Derives ts (.expr .application e) rest) :
      Derives ts (.expr .any e) rest
  | pipe {head e : Expr} {es : List Expr} {ts us rest : List Lexeme}
      (h : Derives ts (.expr .application head) us)
      (hstages : Derives us (.stages (e :: es)) rest) :
      Derives ts (.expr .any (head.sentThrough (e :: es))) rest
  | lambda {p : Pattern} {ps : List Pattern} {body : Expr} {ts us rest : List Lexeme}
      (h : Derives ts (.patterns (p :: ps)) (.mark .arrow :: us))
      (hbody : Derives us (.expr .any body) rest) :
      Derives (.mark .backslash :: ts) (.expr .any (.lambda (p :: ps) body)) rest
  | noArguments (rest : List Lexeme) : Derives rest (.arguments []) rest
  | argument {e : Expr} {es : List Expr} {ts us rest : List Lexeme}
      (h : Derives ts (.expr .atom e) us) (hrest : Derives us (.arguments es) rest) :
      Derives ts (.arguments (e :: es)) rest
  | noStages (rest : List Lexeme) : Derives rest (.stages []) rest
  | stage {e : Expr} {es : List Expr} {ts us rest : List Lexeme}
      (h : Derives ts (.expr .application e) us) (hrest : Derives us (.stages es) rest) :
      Derives (.mark .pipe :: ts) (.stages (e :: es)) rest
  | lastStage {e : Expr} {ts rest : List Lexeme}
      (h : Derives (.mark .backslash :: ts) (.expr .any e) rest) :
      Derives (.mark .pipe :: .mark .backslash :: ts) (.stages [e]) rest
  | noItems (closing : Mark) (rest : List Lexeme) :
      Derives (.mark closing :: rest) (.items closing []) rest
  | lastItem {closing : Mark} {e : Expr} {ts rest : List Lexeme}
      (h : Derives ts (.expr .any e) (.mark closing :: rest)) : Derives ts (.items closing [e]) rest
  | item {closing : Mark} {e next : Expr} {es : List Expr} {ts us rest : List Lexeme}
      (h : Derives ts (.expr .any e) (.mark .comma :: us))
      (hrest : Derives us (.items closing (next :: es)) rest) :
      Derives ts (.items closing (e :: next :: es)) rest
  | noFields (rest : List Lexeme) : Derives (.mark .rightBrace :: rest) (.fields []) rest
  | lastField {name : String} {e : Expr} {ts rest : List Lexeme} (hname : isSmall name = true)
      (h : Derives ts (.expr .any e) (.mark .rightBrace :: rest)) :
      Derives (.word name :: .mark .equals :: ts) (.fields [(name, e)]) rest
  | field {name : String} {e : Expr} {next : String × Expr} {fields : List (String × Expr)}
      {ts us rest : List Lexeme} (hname : isSmall name = true)
      (h : Derives ts (.expr .any e) (.mark .comma :: us))
      (hrest : Derives us (.fields (next :: fields)) rest) :
      Derives (.word name :: .mark .equals :: ts) (.fields ((name, e) :: next :: fields)) rest
  | simple {w : String} {p : Pattern} (h : Pattern.ofWord? w = some p) (rest : List Lexeme) :
      Derives (.word w :: rest) (.pattern true p) rest
  | patternGroup {p : Pattern} {ts rest : List Lexeme}
      (h : Derives ts (.pattern false p) (.mark .rightParen :: rest)) :
      Derives (.mark .leftParen :: ts) (.pattern true p) rest
  | atomicPattern {p : Pattern} {ts rest : List Lexeme} (h : Derives ts (.pattern true p) rest) :
      Derives ts (.pattern false p) rest
  | ctor {w : String} {p : Pattern} {ps : List Pattern} {ts rest : List Lexeme}
      (hw : isCapitalised w = true) (h : Derives ts (.patterns (p :: ps)) rest) :
      Derives (.word w :: ts) (.pattern false (.ctor w (p :: ps))) rest
  | noPatterns (rest : List Lexeme) : Derives rest (.patterns []) rest
  | patterns {p : Pattern} {ps : List Pattern} {ts us rest : List Lexeme}
      (h : Derives ts (.pattern true p) us) (hrest : Derives us (.patterns ps) rest) :
      Derives ts (.patterns (p :: ps)) rest

/-- What the text says. -/
def Reads (text : String) (e : Expr) : Prop :=
  .junk ∉ lexemes text.toList ∧ Derives (lexemes text.toList) (.expr .any e) []

/-! ## Where phrases end -/

/-- Does an expression that needs no parentheses start with the lexeme? -/
def startsAtom : Lexeme → Bool
  | .word _ | .string _ => true
  | .mark m => m.startsAtom
  | .fields _ | .junk => false

/-- Does the lexeme go on with what stands in the place? -/
abbrev goesOn : Place → Lexeme → Bool := Place.goesOn startsAtom (.mark .pipe)

/-- Does a pattern start with the lexeme? -/
def startsPattern : Lexeme → Bool
  | .word _ | .mark .leftParen => true
  | _ => false

/-- Does the lexeme go on with a pattern?  None does where constructors with arguments need
parentheses. -/
def goesOnPattern (atomic : Bool) (l : Lexeme) : Bool := !atomic && startsPattern l

/-- The readings of a kind of phrase. -/
def reader {α : Type} (kind : α → Phrase) : Reader Lexeme α :=
  fun ts a rest => Derives ts (kind a) rest

/-- A phrase with the fields that are looked up in it. -/
def withFields {α : Type} (R : Reader Lexeme α) : Reader Lexeme (α × List String) :=
  fun ts x rest => ∃ us, R ts x.1 us ∧ takeFields us = (x.2, rest)

def fieldReader : Reader Lexeme (String × Expr) :=
  labelled .word (.mark .equals) (reader (.expr .any))

namespace Derives

variable {ts us rest : List Lexeme} {e : Expr}

theorem starts_atom (h : Derives ts (.expr .atom e) rest) :
    startsWith startsAtom ts = true := by
  cases h <;> rfl

theorem starts_application (h : Derives ts (.expr .application e) rest) :
    startsWith startsAtom ts = true := by
  cases h with
  | atom h | apply h => exact h.starts_atom

theorem starts_any (h : Derives ts (.expr .any e) rest) :
    startsWith startsAtom ts = true ∨ ∃ us, ts = .mark .backslash :: us := by
  cases h with
  | operand h | pipe h => exact .inl h.starts_application
  | lambda => exact .inr ⟨_, rfl⟩

/-- In front of functions that a value is sent through, what is applied ends. -/
theorem stops_stages {es : List Expr} (h : Derives ts (.stages es) rest)
    (hrest : startsWith (goesOn .any) rest = false) :
    startsWith startsAtom ts = false := by
  cases h with
  | noStages => exact (stops_of_orToken hrest).1
  | stage | lastStage => rfl

theorem starts_pattern {atomic : Bool} {p : Pattern} (h : Derives ts (.pattern atomic p) rest) :
    startsWith startsPattern ts = true := by
  cases h with
  | simple | patternGroup | ctor => rfl
  | atomicPattern h =>
    cases h with
    | simple | patternGroup => rfl

theorem application_cases (h : Derives ts (.expr .application e) rest) :
    ∃ head us es, Derives ts (.expr .atom head) us ∧ Derives us (.arguments es) rest ∧
      e = applied head es := by
  cases h with
  | atom h => exact ⟨_, _, [], h, .noArguments _, rfl⟩
  | apply h harguments => exact ⟨_, _, _, h, harguments, rfl⟩

theorem any_cases (h : Derives ts (.expr .any e) rest)
    (hts : startsWith startsAtom ts = true) :
    ∃ head us es, Derives ts (.expr .application head) us ∧ Derives us (.stages es) rest ∧
      e = head.sentThrough es := by
  cases h with
  | operand h => exact ⟨_, _, [], h, .noStages _, rfl⟩
  | pipe h hstages => exact ⟨_, _, _, h, hstages, rfl⟩
  | lambda => cases hts

theorem lambda_cases (h : Derives (.mark .backslash :: ts) (.expr .any e) rest) :
    ∃ ps us body, Derives ts (.patterns ps) (.mark .arrow :: us) ∧
      Derives us (.expr .any body) rest ∧ e = .lambda ps body := by
  cases h with
  | operand h | pipe h => exact absurd h.starts_application Bool.false_ne_true
  | lambda h hbody => exact ⟨_, _, _, h, hbody, rfl⟩

end Derives

theorem many_arguments : Many (reader (.expr .atom)) (reader .arguments) startsAtom where
  cases ts es rest h := by
    cases h with
    | noArguments => exact .inl ⟨rfl, rfl⟩
    | argument h hrest => exact .inr ⟨_, _, _, h, hrest, rfl⟩
  starts _ _ _ h := h.starts_atom

theorem many_patterns : Many (reader (.pattern true)) (reader .patterns) startsPattern where
  cases ts ps rest h := by
    cases h with
    | noPatterns => exact .inl ⟨rfl, rfl⟩
    | patterns h hrest => exact .inr ⟨_, _, _, h, hrest, rfl⟩
  starts _ _ _ h := h.starts_pattern

theorem separated_items {closing : Mark} (h : closing.isClosing = true) :
    Separated (reader (.expr .any)) (reader (.items closing)) (goesOn .any) (.mark .comma)
      (.mark closing) where
  cases ts es rest h := by
    cases h with
    | noItems => exact .inl ⟨rfl, rfl⟩
    | lastItem h => exact .inr (.inl ⟨_, h, rfl⟩)
    | item h hrest => exact .inr (.inr ⟨_, _, _, h, hrest, rfl⟩)
  not_closing ts e rest he := by
    obtain ⟨hatom, hbackslash, -⟩ := Mark.ends_of_isClosing h
    rcases he.starts_any with hstarts | ⟨us, heq⟩
    · exact absurd hstarts (ne_true_of_eq_false hatom)
    · cases heq
      exact hbackslash rfl
  apart heq := (Mark.ends_of_isClosing h).2.2.2 (Lexeme.mark.inj heq).symm
  comma_ends := rfl
  closing_ends := by
    obtain ⟨hatom, -, hpipe, -⟩ := Mark.ends_of_isClosing h
    simp [Place.goesOn, orToken, startsAtom, hatom, hpipe]

theorem separated_fields :
    Separated fieldReader (reader .fields) (goesOn .any) (.mark .comma) (.mark .rightBrace) where
  cases ts fields rest h := by
    cases h with
    | noFields => exact .inl ⟨rfl, rfl⟩
    | lastField _ h => exact .inr (.inl ⟨(_, _), ⟨_, rfl, h⟩, rfl⟩)
    | field _ h hrest => exact .inr (.inr ⟨(_, _), _, _, ⟨_, rfl, h⟩, hrest, rfl⟩)
  not_closing := by
    rintro ts field rest ⟨us, heq, -⟩
    cases heq
  apart := by decide
  comma_ends := rfl
  closing_ends := rfl

/-! ## At most one reading -/

/-- The phrase is the only one of its kind that the lexemes start with. -/
def Phrase.Unique (ts rest : List Lexeme) : Phrase → Prop
  | .expr place e => Only (reader (.expr place)) (goesOn place) ts e rest
  | .arguments es => Only (reader .arguments) startsAtom ts es rest
  | .stages es => Only (reader .stages) (goesOn .any) ts es rest
  | .items closing es => closing.isClosing = true → Only (reader (.items closing)) never ts es rest
  | .fields entries => Only (reader .fields) never ts entries rest
  | .pattern atomic p => Only (reader (.pattern atomic)) (goesOnPattern atomic) ts p rest
  | .patterns ps => Only (reader .patterns) startsPattern ts ps rest

section

variable {ts us rest : List Lexeme} {e : Expr}

theorem only_withFields {α : Type} {R : Reader Lexeme α} {a : α} {names : List String}
    (hfields : takeFields us = (names, rest)) (ih : Only R never ts a us) :
    Only (withFields R) never ts (a, names) rest := by
  refine .intro ?_
  rintro ⟨a', names'⟩ rest' ⟨us', h', hfields'⟩
  obtain ⟨rfl, rfl⟩ := ih (startsWith_never _) h' (startsWith_never _)
  cases hfields.symm.trans hfields'
  exact ⟨rfl, rfl⟩

theorem only_noStages : Only (reader .stages) (goesOn .any) rest [] rest := by
  intro hrest es rest' h' _
  cases h' with
  | noStages => exact ⟨rfl, rfl⟩
  | stage | lastStage => exact absurd hrest.symm Bool.false_ne_true

theorem only_stage {es : List Expr} (h : Derives ts (.expr .application e) us)
    (hrest : Derives us (.stages es) rest)
    (ih : Only (reader (.expr .application)) (goesOn .application) ts e us)
    (ihrest : Only (reader .stages) (goesOn .any) us es rest) :
    Only (reader .stages) (goesOn .any) (.mark .pipe :: ts) (e :: es) rest := by
  intro hstops es' rest' h' hstops'
  cases h' with
  | noStages => exact absurd hstops'.symm Bool.false_ne_true
  | stage h' hrest' =>
    obtain ⟨rfl, rfl⟩ := ih (hrest.stops_stages hstops) h' (hrest'.stops_stages hstops')
    obtain ⟨rfl, rfl⟩ := ihrest hstops hrest' hstops'
    exact ⟨rfl, rfl⟩
  | lastStage => exact absurd h.starts_application Bool.false_ne_true

theorem only_lastStage
    (ih : Only (reader (.expr .any)) (goesOn .any) (.mark .backslash :: ts) e rest) :
    Only (reader .stages) (goesOn .any) (.mark .pipe :: .mark .backslash :: ts) [e] rest := by
  intro hstops es' rest' h' hstops'
  cases h' with
  | noStages => exact absurd hstops'.symm Bool.false_ne_true
  | stage h' => exact absurd h'.starts_application Bool.false_ne_true
  | lastStage h' =>
    obtain ⟨rfl, rfl⟩ := ih hstops h' hstops'
    exact ⟨rfl, rfl⟩

theorem only_field {name : String} (ih : Only (reader (.expr .any)) (goesOn .any) ts e rest) :
    Only fieldReader (goesOn .any) (.word name :: .mark .equals :: ts) (name, e) rest :=
  ih.labelled fun _ _ => Lexeme.word.inj

theorem only_atomicPattern {p : Pattern} (h : Derives ts (.pattern true p) rest)
    (ih : Only (reader (.pattern true)) (goesOnPattern true) ts p rest) :
    Only (reader (.pattern false)) (goesOnPattern false) ts p rest := by
  intro hstops p' rest' h' _
  cases h' with
  | atomicPattern h' => exact ih (startsWith_never _) h' (startsWith_never _)
  | ctor hw h' =>
    -- The first reading is the constructor alone, and leaves its arguments.
    cases h with
    | simple =>
      cases h' with
      | patterns h' => exact absurd h'.starts_pattern (ne_true_of_eq_false hstops)

theorem only_ctor {w : String} {p : Pattern} {ps : List Pattern}
    (h : Derives ts (.patterns (p :: ps)) rest)
    (ih : Only (reader .patterns) startsPattern ts (p :: ps) rest) :
    Only (reader (.pattern false)) (goesOnPattern false) (.word w :: ts) (.ctor w (p :: ps))
      rest := by
  intro hstops p' rest' h' hstops'
  cases h' with
  | atomicPattern h' =>
    cases h' with
    | simple =>
      cases h with
      | patterns h => exact absurd h.starts_pattern (ne_true_of_eq_false hstops')
  | ctor hw' h' =>
    obtain ⟨heq, rfl⟩ := ih hstops h' hstops'
    cases heq
    exact ⟨rfl, rfl⟩

end

/-- **A text has at most one reading.**  Two readings of the same kind, both as long as they can be,
are the same. -/
theorem Derives.unique {ts rest : List Lexeme} {p : Phrase} (h : Derives ts p rest) :
    p.Unique ts rest := by
  -- Each rule by itself; what is put together from phrases has one reading if they have.
  induction h with
  | word hw rest =>
    refine Only.intro fun e rest' h' => ?_
    cases h' with
    | word hw' =>
      cases hw.symm.trans hw'
      exact ⟨rfl, rfl⟩
  | string s rest =>
    refine Only.intro fun e rest' h' => ?_
    cases h' with
    | string => exact ⟨rfl, rfl⟩
  | list h ih =>
    refine Only.map (ih rfl) fun e rest h' => ?_
    cases h' with
    | list h' => exact ⟨_, h', rfl⟩
  | group h hfields ih =>
    refine Only.map (f := fun x => x.2.foldl Expr.access (grouped x.1))
      (only_withFields hfields (ih rfl)) fun e rest h' => ?_
    cases h' with
    | group h' hfields' => exact ⟨(_, _), ⟨_, h', hfields'⟩, rfl⟩
  | record h hfields ih =>
    refine Only.map (f := fun x => x.2.foldl Expr.access (.record x.1)) (only_withFields hfields ih)
      fun e rest h' => ?_
    cases h' with
    | record h' hfields' => exact ⟨(_, _), ⟨_, h', hfields'⟩, rfl⟩
  | atom h ih =>
    exact Only.seq (f := applied) ih many_arguments.only_nil (.noArguments _)
      (fun _ _ _ _ _ => startsWith_never _) fun _ _ h' => h'.application_cases
  | apply h harguments ih iharguments =>
    exact Only.seq (f := applied) ih iharguments harguments (fun _ _ _ _ _ => startsWith_never _)
      fun _ _ h' => h'.application_cases
  | operand h ih =>
    exact Only.seq (f := Expr.sentThrough) ih only_noStages (.noStages _)
      (fun _ _ _ => Derives.stops_stages) fun _ _ h' => h'.any_cases h.starts_application
  | pipe h hstages ih ihstages =>
    exact Only.seq (f := Expr.sentThrough) ih ihstages hstages
      (fun _ _ _ => Derives.stops_stages) fun _ _ h' => h'.any_cases h.starts_application
  | lambda h hbody ih ihbody =>
    exact Only.seq (f := Expr.lambda) (Only.before ih rfl never) ihbody hbody
      (fun _ _ _ _ _ => startsWith_never _) fun _ _ h' => h'.lambda_cases
  | noArguments rest => exact many_arguments.only_nil
  | argument h hrest ih ihrest =>
    exact many_arguments.only_cons ih ihrest h hrest fun _ _ _ _ _ => startsWith_never _
  | noStages rest => exact only_noStages
  | stage h hrest ih ihrest => exact only_stage h hrest ih ihrest
  | lastStage h ih => exact only_lastStage ih
  | noItems closing rest => exact fun hclosing => (separated_items hclosing).only_nil
  | lastItem h ih => exact fun hclosing => (separated_items hclosing).only_last ih h
  | item h hrest ih ihrest =>
    exact fun hclosing => (separated_items hclosing).only_cons ih (ihrest hclosing) h
  | noFields rest => exact separated_fields.only_nil
  | lastField _ h ih => exact separated_fields.only_last (only_field ih) ⟨_, rfl, h⟩
  | field _ h hrest ih ihrest =>
    exact separated_fields.only_cons (only_field ih) ihrest ⟨_, rfl, h⟩
  | simple hw rest =>
    refine Only.intro fun p rest' h' => ?_
    cases h' with
    | simple hw' =>
      cases hw.symm.trans hw'
      exact ⟨rfl, rfl⟩
  | patternGroup h ih =>
    refine Only.map (f := id) (Only.before ih rfl (goesOnPattern true)) fun p rest h' => ?_
    cases h' with
    | patternGroup h' => exact ⟨_, h', rfl⟩
  | atomicPattern h ih => exact only_atomicPattern h ih
  | ctor hw h ih => exact only_ctor h ih
  | noPatterns rest => exact many_patterns.only_nil
  | patterns h hrest ih ihrest =>
    exact many_patterns.only_cons ih ihrest h hrest fun _ _ _ _ _ => startsWith_never _

theorem Reads.unique {text : String} {e e' : Expr} (h : Reads text e) (h' : Reads text e') :
    e' = e :=
  (Derives.unique h.2 rfl h'.2 rfl).1

end OperatorGrammar
end ElmWire.Elm
