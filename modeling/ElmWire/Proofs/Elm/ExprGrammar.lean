import ElmWire.Decimal.Literal
import ElmWire.Proofs.Elm.Token
import ElmWire.Proofs.Readings

/-!
# Reading generated code

A grammar for the expressions that encoders and decoders are made of.  It is that of Elm, cut down
to what is generated, so that it does without the layout:

* what is applied is a word, and is not `case`;
* a case expression takes a variable apart, and is the whole body of a function;
* in the branches of a case expression, a word is applied to a string and a list.  So a branch ends
  with the list, and what follows is the pattern of the next one.

A word is a number if it starts with a digit, the name of a function of the JSON library if it
starts with `Json.`, and otherwise a name with the fields that are looked up in it (`Expr.ofWord`).

* `Derives tokens phrase rest` — the grammar: the tokens start with a phrase, behind which `rest`
  follows.
* `Derives.unique` — **a text has at most one reading**.
-/

set_option autoImplicit false
namespace ElmWire.Elm

/-! ## Words and marks -/

/-- Does the word start with the name of the JSON library? -/
def isLibraryWord (w : String) : Bool := "Json.".toList.isPrefixOf w.toList

/-- What a word stands for. -/
def Expr.ofWord (w : String) : Expr :=
  if w.toList.head?.any Char.isDigit then .int (Decimal.ofDigits w.toList)
  else if isLibraryWord w then .var w
  else match Text.pieces '.' w with
    | [] => .var w
    | name :: fields => fields.foldl .access (.var name)

/-- The pattern that a word is. -/
def Pattern.ofWord (w : String) : Pattern := if w = "_" then .wildcard else .var w

/-- Does an expression that needs no parentheses start with the mark? -/
def Mark.startsAtom : Mark → Bool
  | .quote | .leftParen | .leftBracket | .leftBrace => true
  | _ => false

/-- Does the mark close the bracket around items? -/
def Mark.isClosing : Mark → Bool
  | .rightParen | .rightBracket => true
  | _ => false

/-- Where a bracket is closed, expressions neither start nor go on. -/
theorem Mark.ends_of_isClosing {m : Mark} (h : m.isClosing = true) :
    m.startsAtom = false ∧ m ≠ .backslash ∧ m ≠ .pipe ∧ m ≠ .comma := by
  cases m with
  | rightParen | rightBracket => decide
  | _ => cases h

namespace ExprGrammar

/-! ## The grammar -/

/-- The places of expressions in generated code. -/
inductive Place where
  /-- What needs no parentheses anywhere. -/
  | atom
  /-- A word applied to arguments may stand here as well. -/
  | application
  | any

/-- A branch of a case expression: for a constructor and variables for its arguments, a function
applied to a tag and a list. -/
structure Branch where
  ctor : String
  params : List String
  function : String
  tag : String
  items : List Expr

/-- The pattern and the body of a branch. -/
def Branch.toPair (b : Branch) : Pattern × Expr :=
  (.ctor b.ctor (b.params.map .var), .app (.var b.function) [.string b.tag, .list b.items])

/-- A part of a text. -/
inductive Phrase where
  | expr (place : Place) (e : Expr)
  /-- The arguments of what is applied. -/
  | arguments (es : List Expr)
  /-- The functions that a value is sent through, each with the mark before it. -/
  | stages (es : List Expr)
  /-- Words up to an arrow. -/
  | params (ws : List String)
  /-- Expressions with commas between them, up to the mark that closes their bracket. -/
  | items (closing : Mark) (es : List Expr)
  /-- Fields with commas between them, up to the closing brace. -/
  | fields (fields : List (String × Expr))
  /-- The branches of a case expression. -/
  | branches (branches : List Branch)

/-- What expressions in parentheses stand for: one is itself, and several are a tuple. -/
def grouped : List Expr → Expr
  | [e] => e
  | es => .tuple es

theorem grouped_eq_tuple {es : List Expr} (h : 2 ≤ es.length) : grouped es = .tuple es := by
  fun_cases grouped es with
  | case1 => simp at h
  | case2 => rfl

/-- The tokens start with a phrase, and some are left. -/
inductive Derives : List Token → Phrase → List Token → Prop
  | word (w : String) (rest : List Token) :
      Derives (.word w :: rest) (.expr .atom (.ofWord w)) rest
  | string (s : String) (rest : List Token) :
      Derives (.mark .quote :: .word s :: .mark .quote :: rest) (.expr .atom (.string s)) rest
  | group {es : List Expr} {ts rest : List Token} (h : Derives ts (.items .rightParen es) rest) :
      Derives (.mark .leftParen :: ts) (.expr .atom (grouped es)) rest
  | list {es : List Expr} {ts rest : List Token} (h : Derives ts (.items .rightBracket es) rest) :
      Derives (.mark .leftBracket :: ts) (.expr .atom (.list es)) rest
  | record {fields : List (String × Expr)} {ts rest : List Token}
      (h : Derives ts (.fields fields) rest) :
      Derives (.mark .leftBrace :: ts) (.expr .atom (.record fields)) rest
  | atom {e : Expr} {ts rest : List Token} (h : Derives ts (.expr .atom e) rest) :
      Derives ts (.expr .application e) rest
  | apply {w : String} {e : Expr} {es : List Expr} {ts rest : List Token} (hw : w ≠ "case")
      (h : Derives ts (.arguments (e :: es)) rest) :
      Derives (.word w :: ts) (.expr .application (.app (.ofWord w) (e :: es))) rest
  | operand {e : Expr} {ts rest : List Token} (h : Derives ts (.expr .application e) rest) :
      Derives ts (.expr .any e) rest
  | pipe {head e : Expr} {es : List Expr} {ts us rest : List Token}
      (h : Derives ts (.expr .application head) us)
      (hstages : Derives us (.stages (e :: es)) rest) :
      Derives ts (.expr .any (.pipe head (e :: es))) rest
  | lambda {ws : List String} {body : Expr} {ts us rest : List Token}
      (h : Derives ts (.params ws) us) (hbody : Derives us (.expr .any body) rest) :
      Derives (.mark .backslash :: ts) (.expr .any (.lambda (ws.map .ofWord) body)) rest
  | lambdaCase {ws : List String} {w : String} {branches : List Branch} {ts us rest : List Token}
      (h : Derives ts (.params ws) (.word "case" :: .word w :: .word "of" :: us))
      (hbranches : Derives us (.branches branches) rest) :
      Derives (.mark .backslash :: ts)
        (.expr .any (.lambda (ws.map .ofWord) (.case (.ofWord w) (branches.map Branch.toPair))))
        rest
  | noArguments (rest : List Token) : Derives rest (.arguments []) rest
  | argument {e : Expr} {es : List Expr} {ts us rest : List Token}
      (h : Derives ts (.expr .atom e) us) (hrest : Derives us (.arguments es) rest) :
      Derives ts (.arguments (e :: es)) rest
  | noStages (rest : List Token) : Derives rest (.stages []) rest
  | stage {e : Expr} {es : List Expr} {ts us rest : List Token}
      (h : Derives ts (.expr .application e) us) (hrest : Derives us (.stages es) rest) :
      Derives (.mark .pipe :: ts) (.stages (e :: es)) rest
  | noParams (rest : List Token) : Derives (.mark .arrow :: rest) (.params []) rest
  | param {ws : List String} {ts rest : List Token} (w : String)
      (h : Derives ts (.params ws) rest) : Derives (.word w :: ts) (.params (w :: ws)) rest
  | noItems (closing : Mark) (rest : List Token) :
      Derives (.mark closing :: rest) (.items closing []) rest
  | lastItem {closing : Mark} {e : Expr} {ts rest : List Token}
      (h : Derives ts (.expr .any e) (.mark closing :: rest)) : Derives ts (.items closing [e]) rest
  | item {closing : Mark} {e next : Expr} {es : List Expr} {ts us rest : List Token}
      (h : Derives ts (.expr .any e) (.mark .comma :: us))
      (hrest : Derives us (.items closing (next :: es)) rest) :
      Derives ts (.items closing (e :: next :: es)) rest
  | noFields (rest : List Token) : Derives (.mark .rightBrace :: rest) (.fields []) rest
  | lastField {name : String} {e : Expr} {ts rest : List Token}
      (h : Derives ts (.expr .any e) (.mark .rightBrace :: rest)) :
      Derives (.word name :: .mark .equals :: ts) (.fields [(name, e)]) rest
  | field {name : String} {e : Expr} {next : String × Expr} {fields : List (String × Expr)}
      {ts us rest : List Token} (h : Derives ts (.expr .any e) (.mark .comma :: us))
      (hrest : Derives us (.fields (next :: fields)) rest) :
      Derives (.word name :: .mark .equals :: ts) (.fields ((name, e) :: next :: fields)) rest
  | noBranches (rest : List Token) : Derives rest (.branches []) rest
  | branch {ctor function tag : String} {ws : List String} {es : List Expr}
      {branches : List Branch} {ts us vs rest : List Token}
      (hparams : Derives ts (.params ws) (.word function :: .mark .quote :: .word tag ::
        .mark .quote :: .mark .leftBracket :: us))
      (hitems : Derives us (.items .rightBracket es) vs)
      (hrest : Derives vs (.branches branches) rest) :
      Derives (.word ctor :: ts) (.branches (⟨ctor, ws, function, tag, es⟩ :: branches)) rest

/-- What the text says, if it is generated code. -/
def Reads (text : String) (e : Expr) : Prop := Derives (tokens text.toList) (.expr .any e) []

/-! ## Where phrases end -/

open Readings

/-- Does the token go on with what stands in the place?  It may be the start of an argument, or the
mark before a function that the value is sent through. -/
def Place.goesOn {τ : Type} [DecidableEq τ] (startsAtom : τ → Bool) (pipe : τ) : Place → τ → Bool
  | .atom => never
  | .application => startsAtom
  | .any => orToken startsAtom pipe

/-- Does an expression that needs no parentheses start with the token? -/
def startsAtom : Token → Bool
  | .word _ => true
  | .mark m => m.startsAtom

/-- Does the token go on with what stands in the place? -/
abbrev goesOn : Place → Token → Bool := Place.goesOn startsAtom (.mark .pipe)

/-- The readings of a kind of phrase. -/
def reader {α : Type} (kind : α → Phrase) : Reader Token α :=
  fun ts a rest => Derives ts (kind a) rest

/-- A function that a value is sent through, with the mark before it. -/
def stageReader : Reader Token Expr := fun ts e rest =>
  ∃ us, ts = .mark .pipe :: us ∧ Derives us (.expr .application e) rest

def fieldReader : Reader Token (String × Expr) :=
  labelled .word (.mark .equals) (reader (.expr .any))

def branchReader : Reader Token Branch := fun ts b rest =>
  ∃ us vs, ts = .word b.ctor :: us ∧
    Derives us (.params b.params) (.word b.function :: .mark .quote :: .word b.tag ::
      .mark .quote :: .mark .leftBracket :: vs) ∧
    Derives vs (.items .rightBracket b.items) rest

/-- An expression with arguments, if there are any. -/
def applied : Expr → List Expr → Expr
  | function, [] => function
  | function, es => .app function es

/-- A value with the functions that it is sent through, if there are any. -/
def piped : Expr → List Expr → Expr
  | head, [] => head
  | head, es => .pipe head es

namespace Derives

variable {ts us rest : List Token} {e : Expr}

theorem starts_atom (h : Derives ts (.expr .atom e) rest) :
    startsWith startsAtom ts = true := by
  cases h <;> rfl

theorem starts_application (h : Derives ts (.expr .application e) rest) :
    startsWith startsAtom ts = true := by
  cases h with
  | atom h => exact h.starts_atom
  | apply => rfl

theorem starts_any (h : Derives ts (.expr .any e) rest) :
    startsWith startsAtom ts = true ∨ ∃ us, ts = .mark .backslash :: us := by
  cases h with
  | operand h | pipe h => exact .inl h.starts_application
  | lambda | lambdaCase => exact .inr ⟨_, rfl⟩

/-- In front of functions that a value is sent through, what is applied ends. -/
theorem stops_stages {es : List Expr} (h : Derives ts (.stages es) rest)
    (hrest : startsWith (goesOn .any) rest = false) :
    startsWith startsAtom ts = false := by
  cases h with
  | noStages => exact (stops_of_orToken hrest).1
  | stage => rfl

theorem application_cases (h : Derives ts (.expr .application e) rest) :
    ∃ head us es, Derives ts (.expr .atom head) us ∧ Derives us (.arguments es) rest ∧
      e = applied head es := by
  cases h with
  | atom h => exact ⟨_, _, [], h, .noArguments _, rfl⟩
  | apply hw h => exact ⟨_, _, _, .word _ _, h, rfl⟩

theorem any_cases (h : Derives ts (.expr .any e) rest)
    (hts : startsWith startsAtom ts = true) :
    ∃ head us es, Derives ts (.expr .application head) us ∧ Derives us (.stages es) rest ∧
      e = piped head es := by
  cases h with
  | operand h => exact ⟨_, _, [], h, .noStages _, rfl⟩
  | pipe h hstages => exact ⟨_, _, _, h, hstages, rfl⟩
  | lambda | lambdaCase => cases hts

/-- A case expression is no expression of another kind. -/
theorem goesOn_of_case {w : String}
    (h : Derives (.word "case" :: .word w :: us) (.expr .any e) rest) :
    startsWith (goesOn .any) rest = true := by
  obtain ⟨head, vs, es, happlication, hstages, -⟩ := h.any_cases rfl
  have hvs : vs = .word w :: us := by
    cases happlication with
    | atom h =>
      cases h with
      | word => rfl
    | apply hw => exact absurd rfl hw
  subst hvs
  cases hstages with
  | noStages => rfl

end Derives

theorem many_arguments : Many (reader (.expr .atom)) (reader .arguments) startsAtom where
  cases ts es rest h := by
    cases h with
    | noArguments => exact .inl ⟨rfl, rfl⟩
    | argument h hrest => exact .inr ⟨_, _, _, h, hrest, rfl⟩
  starts _ _ _ h := h.starts_atom

theorem many_stages : Many stageReader (reader .stages) (goesOn .any) where
  cases ts es rest h := by
    cases h with
    | noStages => exact .inl ⟨rfl, rfl⟩
    | stage h hrest => exact .inr ⟨_, _, _, ⟨_, rfl, h⟩, hrest, rfl⟩
  starts := by
    rintro _ e rest ⟨us, rfl, -⟩
    rfl

theorem many_branches : Many branchReader (reader .branches) startsAtom where
  cases ts branches rest h := by
    cases h with
    | noBranches => exact .inl ⟨rfl, rfl⟩
    | branch hparams hitems hrest => exact .inr ⟨_, _, _, ⟨_, _, rfl, hparams, hitems⟩, hrest, rfl⟩
  starts := by
    rintro _ b rest ⟨us, vs, rfl, -⟩
    rfl

theorem separated_items {closing : Mark} (h : closing.isClosing = true) :
    Separated (reader (.expr .any)) (reader (.items closing)) (goesOn .any) (.mark .comma)
      (.mark closing) where
  cases ts es rest h := by
    cases h with
    | noItems => exact .inl ⟨rfl, rfl⟩
    | lastItem h => exact .inr (.inl ⟨_, h, rfl⟩)
    | item h hrest => exact .inr (.inr ⟨_, _, _, h, hrest, rfl⟩)
  not_closing ts e rest he := by
    obtain ⟨hatom, hbackslash, -⟩ := Mark.ends_of_isClosing h
    rcases he.starts_any with hstarts | ⟨us, heq⟩
    · exact absurd hstarts (ne_true_of_eq_false hatom)
    · cases heq
      exact hbackslash rfl
  apart heq := (Mark.ends_of_isClosing h).2.2.2 (Token.mark.inj heq).symm
  comma_ends := rfl
  closing_ends := by
    obtain ⟨hatom, -, hpipe, -⟩ := Mark.ends_of_isClosing h
    simp [Place.goesOn, orToken, startsAtom, hatom, hpipe]

theorem separated_fields :
    Separated fieldReader (reader .fields) (goesOn .any) (.mark .comma) (.mark .rightBrace) where
  cases ts fields rest h := by
    cases h with
    | noFields => exact .inl ⟨rfl, rfl⟩
    | lastField h => exact .inr (.inl ⟨(_, _), ⟨_, rfl, h⟩, rfl⟩)
    | field h hrest => exact .inr (.inr ⟨(_, _), _, _, ⟨_, rfl, h⟩, hrest, rfl⟩)
  not_closing := by
    rintro ts field rest ⟨us, heq, -⟩
    cases heq
  apart := by decide
  comma_ends := rfl
  closing_ends := rfl

/-! ## At most one reading -/

/-- The phrase is the only one of its kind that the tokens start with. -/
def Phrase.Unique (ts rest : List Token) : Phrase → Prop
  | .expr place e => Only (reader (.expr place)) (goesOn place) ts e rest
  | .arguments es => Only (reader .arguments) startsAtom ts es rest
  | .stages es => Only (reader .stages) (goesOn .any) ts es rest
  | .params ws => Only (reader .params) never ts ws rest
  | .items closing es => closing.isClosing = true → Only (reader (.items closing)) never ts es rest
  | .fields entries => Only (reader .fields) never ts entries rest
  | .branches bs => Only (reader .branches) startsAtom ts bs rest

section

variable {ts us vs rest : List Token} {e : Expr}

theorem only_word (w : String) (rest : List Token) :
    Only (reader (.expr .atom)) (goesOn .atom) (.word w :: rest) (.ofWord w) rest := by
  refine .intro fun e rest' h => ?_
  cases h with
  | word => exact ⟨rfl, rfl⟩

theorem only_lambda {ws : List String} {body : Expr} (h : Derives ts (.params ws) us)
    (hbody : Derives us (.expr .any body) rest) (ihws : Only (reader .params) never ts ws us)
    (ihbody : Only (reader (.expr .any)) (goesOn .any) us body rest) :
    Only (reader (.expr .any)) (goesOn .any) (.mark .backslash :: ts)
      (.lambda (ws.map .ofWord) body) rest := by
  intro hrest e rest' h' hrest'
  cases h' with
  | operand h' | pipe h' => exact absurd h'.starts_application Bool.false_ne_true
  | lambda h' hbody' =>
    obtain ⟨rfl, rfl⟩ := ihws (startsWith_never _) h' (startsWith_never _)
    obtain ⟨rfl, rfl⟩ := ihbody hrest hbody' hrest'
    exact ⟨rfl, rfl⟩
  | lambdaCase h' =>
    -- As an expression, the body would be the word `case`, with the rest left over.
    obtain ⟨-, rfl⟩ := ihws (startsWith_never _) h' (startsWith_never _)
    exact absurd hbody.goesOn_of_case (ne_true_of_eq_false hrest)

theorem only_lambdaCase {ws : List String} {w : String} {branches : List Branch}
    (ihws : Only (reader .params) never ts ws (.word "case" :: .word w :: .word "of" :: us))
    (ihbranches : Only (reader .branches) startsAtom us branches rest) :
    Only (reader (.expr .any)) (goesOn .any) (.mark .backslash :: ts)
      (.lambda (ws.map .ofWord) (.case (.ofWord w) (branches.map Branch.toPair))) rest := by
  intro hrest e rest' h' hrest'
  cases h' with
  | operand h' | pipe h' => exact absurd h'.starts_application Bool.false_ne_true
  | lambda h' hbody' =>
    obtain ⟨-, rfl⟩ := ihws (startsWith_never _) h' (startsWith_never _)
    exact absurd hbody'.goesOn_of_case (ne_true_of_eq_false hrest')
  | lambdaCase h' hbranches' =>
    obtain ⟨rfl, heq⟩ := ihws (startsWith_never _) h' (startsWith_never _)
    cases heq
    obtain ⟨rfl, rfl⟩ := ihbranches (stops_of_orToken hrest).1 hbranches'
      (stops_of_orToken hrest').1
    exact ⟨rfl, rfl⟩

theorem only_stage (ih : Only (reader (.expr .application)) (goesOn .application) ts e rest) :
    Only stageReader (goesOn .application) (.mark .pipe :: ts) e rest := by
  refine ih.map (f := id) ?_
  rintro e' rest' ⟨us, heq, h'⟩
  cases heq
  exact ⟨e', h', rfl⟩

theorem only_field {name : String} (ih : Only (reader (.expr .any)) (goesOn .any) ts e rest) :
    Only fieldReader (goesOn .any) (.word name :: .mark .equals :: ts) (name, e) rest :=
  ih.labelled fun _ _ => Token.word.inj

theorem only_branch {ctor function tag : String} {ws : List String} {es : List Expr}
    (ihws : Only (reader .params) never ts ws (.word function :: .mark .quote :: .word tag ::
      .mark .quote :: .mark .leftBracket :: us))
    (ihes : Only (reader (.items .rightBracket)) never us es rest) :
    Only branchReader never (.word ctor :: ts) ⟨ctor, ws, function, tag, es⟩ rest := by
  refine .intro ?_
  rintro ⟨ctor', ws', function', tag', es'⟩ rest' ⟨us', vs', heq, hparams, hitems⟩
  cases heq
  obtain ⟨rfl, heq⟩ := ihws (startsWith_never _) hparams (startsWith_never _)
  cases heq
  obtain ⟨rfl, rfl⟩ := ihes (startsWith_never _) hitems (startsWith_never _)
  exact ⟨rfl, rfl⟩

end

/-- **A text has at most one reading.**  Two readings of the same kind, both as long as they can be,
are the same. -/
theorem Derives.unique {ts rest : List Token} {p : Phrase} (h : Derives ts p rest) :
    p.Unique ts rest := by
  -- Each rule by itself; what is put together from phrases has one reading if they have.
  induction h with
  | word w rest => exact only_word w rest
  | string s rest =>
    refine Only.intro fun e rest' h' => ?_
    cases h' with
    | string => exact ⟨rfl, rfl⟩
  | group h ih =>
    refine Only.map (ih rfl) fun e rest h' => ?_
    cases h' with
    | group h' => exact ⟨_, h', rfl⟩
  | list h ih =>
    refine Only.map (ih rfl) fun e rest h' => ?_
    cases h' with
    | list h' => exact ⟨_, h', rfl⟩
  | record h ih =>
    refine Only.map ih fun e rest h' => ?_
    cases h' with
    | record h' => exact ⟨_, h', rfl⟩
  | atom h ih =>
    exact Only.seq (f := applied) ih many_arguments.only_nil (.noArguments _)
      (fun _ _ _ _ _ => startsWith_never _) fun _ _ h' => h'.application_cases
  | @apply w e es ts rest hw h ih =>
    exact (only_word w ts).seq (f := applied) ih h (fun _ _ _ _ _ => startsWith_never _)
      fun _ _ h' => h'.application_cases
  | operand h ih =>
    exact Only.seq (f := piped) ih many_stages.only_nil (.noStages _)
      (fun _ _ _ => Derives.stops_stages) fun _ _ h' => h'.any_cases h.starts_application
  | pipe h hstages ih ihstages =>
    exact Only.seq (f := piped) ih ihstages hstages (fun _ _ _ => Derives.stops_stages)
      fun _ _ h' => h'.any_cases h.starts_application
  | lambda h hbody ih ihbody => exact only_lambda h hbody ih ihbody
  | lambdaCase h hbranches ih ihbranches => exact only_lambdaCase ih ihbranches
  | noArguments rest => exact many_arguments.only_nil
  | argument h hrest ih ihrest =>
    exact many_arguments.only_cons ih ihrest h hrest fun _ _ _ _ _ => startsWith_never _
  | noStages rest => exact many_stages.only_nil
  | stage h hrest ih ihrest =>
    exact many_stages.only_cons (only_stage ih) ihrest ⟨_, rfl, h⟩ hrest
      fun _ _ _ => Derives.stops_stages
  | noParams rest =>
    refine Only.intro fun ws rest' h' => ?_
    cases h' with
    | noParams => exact ⟨rfl, rfl⟩
  | param w h ih =>
    refine Only.map (f := fun ws => w :: ws) ih fun ws rest h' => ?_
    cases h' with
    | param _ h' => exact ⟨_, h', rfl⟩
  | noItems closing rest => exact fun hclosing => (separated_items hclosing).only_nil
  | lastItem h ih => exact fun hclosing => (separated_items hclosing).only_last ih h
  | item h hrest ih ihrest =>
    exact fun hclosing => (separated_items hclosing).only_cons ih (ihrest hclosing) h
  | noFields rest => exact separated_fields.only_nil
  | lastField h ih => exact separated_fields.only_last (only_field ih) ⟨_, rfl, h⟩
  | field h hrest ih ihrest => exact separated_fields.only_cons (only_field ih) ihrest ⟨_, rfl, h⟩
  | noBranches rest => exact many_branches.only_nil
  | branch hparams hitems hrest ihparams ihitems ihrest =>
    exact many_branches.only_cons (only_branch ihparams (ihitems rfl)) ihrest
      ⟨_, _, rfl, hparams, hitems⟩ hrest fun _ _ _ _ _ => startsWith_never _

theorem Reads.unique {text : String} {e e' : Expr} (h : Reads text e) (h' : Reads text e') :
    e' = e :=
  (Derives.unique h rfl h' rfl).1

end ExprGrammar
end ElmWire.Elm
