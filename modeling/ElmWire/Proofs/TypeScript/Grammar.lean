import ElmWire.Proofs.Readings
import ElmWire.Proofs.TypeScript.Token

/-!
# Reading TypeScript

A grammar for the part of TypeScript that declarations of types are written in, and what a text says
according to it.

* `Derives tokens phrase rest` — the grammar: the tokens start with a phrase, behind which `rest`
  follows.
* `Derives.unique` — **tokens have at most one reading**, since one token ahead tells where a phrase
  ends.  So a text has at most one (`Reads.unique`, `ReadsAll.unique`).
-/

set_option autoImplicit false
namespace ElmWire.TypeScript

/-! ## Types and declarations -/

/-- A type. -/
inductive TypeExpr where
  | number
  | boolean
  | string
  /-- The type without values. -/
  | never
  /-- The type of one string. -/
  | literal (s : String)
  | tuple (items : List TypeExpr)
  | object (members : List (String × TypeExpr))
  /-- A named type with its arguments. -/
  | ref (name : String) (arguments : List TypeExpr)
  | union (alternatives : List TypeExpr)

/-- The type that a word stands for. -/
def TypeExpr.ofWord : String → TypeExpr
  | "number" => .number
  | "boolean" => .boolean
  | "string" => .string
  | "never" => .never
  | name => .ref name []

/-- The type of which there are some alternatives. -/
def TypeExpr.ofAlternatives : List TypeExpr → TypeExpr
  | [type] => type
  | alternatives => .union alternatives

/-- The declaration of a type. -/
structure Declaration where
  name : String
  params : List String
  type : TypeExpr

/-- A part of a text. -/
inductive Phrase where
  /-- A type that needs no parentheses. -/
  | primary (type : TypeExpr)
  /-- Types with bars between them. -/
  | alternatives (types : List TypeExpr)
  | type (type : TypeExpr)
  /-- Types with commas between them. -/
  | types (types : List TypeExpr)
  /-- The inside of an object type. -/
  | members (members : List (String × TypeExpr))
  /-- Names with commas between them. -/
  | params (names : List String)
  | declaration (declaration : Declaration)
  | declarations (declarations : List Declaration)

/-! ## The grammar -/

/-- The tokens start with a phrase, and some are left. -/
inductive Derives : List Token → Phrase → List Token → Prop
  | word (w : String) (rest : List Token) : Derives (.word w :: rest) (.primary (.ofWord w)) rest
  | text (s : String) (rest : List Token) : Derives (.text s :: rest) (.primary (.literal s)) rest
  | apply {w : String} {arguments : List TypeExpr} {ts rest : List Token}
      (h : Derives ts (.types arguments) (.mark .greater :: rest)) :
      Derives (.word w :: .mark .less :: ts) (.primary (.ref w arguments)) rest
  | tuple {items : List TypeExpr} {ts rest : List Token}
      (h : Derives ts (.types items) (.mark .rightBracket :: rest)) :
      Derives (.mark .leftBracket :: ts) (.primary (.tuple items)) rest
  | object {members : List (String × TypeExpr)} {ts rest : List Token}
      (h : Derives ts (.members members) (.mark .rightBrace :: rest)) :
      Derives (.mark .leftBrace :: ts) (.primary (.object members)) rest
  | alternative {type : TypeExpr} {ts rest : List Token} (h : Derives ts (.primary type) rest) :
      Derives ts (.alternatives [type]) rest
  | alternatives {type : TypeExpr} {types : List TypeExpr} {ts us rest : List Token}
      (h : Derives ts (.primary type) (.mark .bar :: us))
      (hrest : Derives us (.alternatives types) rest) :
      Derives ts (.alternatives (type :: types)) rest
  | type {types : List TypeExpr} {ts rest : List Token}
      (h : Derives ts (.alternatives types) rest) :
      Derives ts (.type (.ofAlternatives types)) rest
  /-- There may be a bar in front of the first alternative. -/
  | bar {types : List TypeExpr} {ts rest : List Token} (h : Derives ts (.alternatives types) rest) :
      Derives (.mark .bar :: ts) (.type (.ofAlternatives types)) rest
  | item {type : TypeExpr} {ts rest : List Token} (h : Derives ts (.type type) rest) :
      Derives ts (.types [type]) rest
  | items {type : TypeExpr} {types : List TypeExpr} {ts us rest : List Token}
      (h : Derives ts (.type type) (.mark .comma :: us)) (hrest : Derives us (.types types) rest) :
      Derives ts (.types (type :: types)) rest
  | noMembers (rest : List Token) : Derives rest (.members []) rest
  /-- There need not be a semicolon behind the last member. -/
  | lastMember {name : String} {type : TypeExpr} {ts rest : List Token}
      (h : Derives ts (.type type) rest) :
      Derives (.word name :: .mark .colon :: ts) (.members [(name, type)]) rest
  | member {name : String} {type : TypeExpr} {members : List (String × TypeExpr)}
      {ts us rest : List Token} (h : Derives ts (.type type) (.mark .semicolon :: us))
      (hrest : Derives us (.members members) rest) :
      Derives (.word name :: .mark .colon :: ts) (.members ((name, type) :: members)) rest
  | param (name : String) (rest : List Token) : Derives (.word name :: rest) (.params [name]) rest
  | params {name : String} {names : List String} {ts rest : List Token}
      (h : Derives ts (.params names) rest) :
      Derives (.word name :: .mark .comma :: ts) (.params (name :: names)) rest
  | declaration {name : String} {type : TypeExpr} {ts rest : List Token}
      (h : Derives ts (.type type) (.mark .semicolon :: rest)) :
      Derives (.word "export" :: .word "type" :: .word name :: .mark .equals :: ts)
        (.declaration ⟨name, [], type⟩) rest
  | generic {name : String} {params : List String} {type : TypeExpr} {ts us rest : List Token}
      (hparams : Derives ts (.params params) (.mark .greater :: .mark .equals :: us))
      (h : Derives us (.type type) (.mark .semicolon :: rest)) :
      Derives (.word "export" :: .word "type" :: .word name :: .mark .less :: ts)
        (.declaration ⟨name, params, type⟩) rest
  | noDeclarations : Derives [] (.declarations []) []
  | declarations {d : Declaration} {ds : List Declaration} {ts us rest : List Token}
      (h : Derives ts (.declaration d) us) (hrest : Derives us (.declarations ds) rest) :
      Derives ts (.declarations (d :: ds)) rest

/-- What the text says, if it is a type. -/
def Reads (text : String) (type : TypeExpr) : Prop :=
  ∃ tokens, Lexes text tokens ∧ Derives tokens (.type type) []

/-- What the text says, if it is a sequence of declarations. -/
def ReadsAll (text : String) (declarations : List Declaration) : Prop :=
  ∃ tokens, Lexes text tokens ∧ Derives tokens (.declarations declarations) []

/-! ## Where phrases end -/

open Readings

/-- Does the token go on with a type that needs no parentheses? -/
def isLess (t : Token) : Bool := t = .mark .less

/-- Does the token go on with a type?  It may be the start of its arguments, or a bar. -/
abbrev goesOn : Token → Bool := orToken isLess (.mark .bar)

/-- The readings of a kind of phrase. -/
def reader {α : Type} (kind : α → Phrase) : Reader Token α :=
  fun ts a rest => Derives ts (kind a) rest

/-- The inside of an object type, and the brace behind it. -/
def membersReader : Reader Token (List (String × TypeExpr)) := fun ts members rest =>
  Derives ts (.members members) (.mark .rightBrace :: rest)

def memberReader : Reader Token (String × TypeExpr) :=
  labelled .word (.mark .colon) (reader .type)

def nameReader : Reader Token String := fun ts name rest => ts = .word name :: rest

/-- No alternative starts with a bar. -/
theorem Derives.not_bar {ts rest : List Token} {types : List TypeExpr} :
    ¬ Derives (.mark .bar :: ts) (.alternatives types) rest := by
  intro h
  cases h with
  | alternative h | alternatives h => cases h

theorem chained_alternatives :
    Chained (reader .primary) (reader .alternatives) isLess (.mark .bar) where
  cases ts types rest h := by
    cases h with
    | alternative h => exact .inl ⟨_, h, rfl⟩
    | alternatives h hrest => exact .inr ⟨_, _, _, h, hrest, rfl⟩
  separator_ends := rfl

theorem chained_types : Chained (reader .type) (reader .types) goesOn (.mark .comma) where
  cases ts types rest h := by
    cases h with
    | item h => exact .inl ⟨_, h, rfl⟩
    | items h hrest => exact .inr ⟨_, _, _, h, hrest, rfl⟩
  separator_ends := rfl

theorem chained_params : Chained nameReader (reader .params) never (.mark .comma) where
  cases ts names rest h := by
    cases h with
    | param => exact .inl ⟨_, rfl, rfl⟩
    | params h => exact .inr ⟨_, _, _, rfl, h, rfl⟩
  separator_ends := rfl

theorem separated_members :
    Separated memberReader membersReader goesOn (.mark .semicolon) (.mark .rightBrace) where
  cases ts members rest h := by
    cases h with
    | noMembers => exact .inl ⟨rfl, rfl⟩
    | lastMember h => exact .inr (.inl ⟨(_, _), ⟨_, rfl, h⟩, rfl⟩)
    | member h hrest => exact .inr (.inr ⟨(_, _), _, _, ⟨_, rfl, h⟩, hrest, rfl⟩)
  not_closing := by
    rintro ts member rest ⟨us, heq, -⟩
    cases heq
  apart := by decide
  comma_ends := rfl
  closing_ends := rfl

theorem many_declarations :
    Many (reader .declaration) (reader .declarations) (fun _ => true) where
  cases ts ds rest h := by
    cases h with
    | noDeclarations => exact .inl ⟨rfl, rfl⟩
    | declarations h hrest => exact .inr ⟨_, _, _, h, hrest, rfl⟩
  starts ts d rest h := by
    cases h <;> rfl

/-! ## At most one reading -/

/-- The phrase is the only one of its kind that the tokens start with. -/
def Phrase.Unique (ts rest : List Token) : Phrase → Prop
  | .primary t => Only (reader .primary) isLess ts t rest
  | .alternatives list => Only (reader .alternatives) goesOn ts list rest
  | .type t => Only (reader .type) goesOn ts t rest
  | .types list => Only (reader .types) (orToken goesOn (.mark .comma)) ts list rest
  | .members entries => ∀ us, rest = .mark .rightBrace :: us →
      Only membersReader never ts entries us
  | .params names => Only (reader .params) (orToken never (.mark .comma)) ts names rest
  | .declaration d => Only (reader .declaration) never ts d rest
  | .declarations ds => Only (reader .declarations) (fun _ => true) ts ds rest

section

variable {ts us rest : List Token} {type : TypeExpr}

theorem only_word (w : String) (rest : List Token) :
    Only (reader .primary) isLess (.word w :: rest) (.ofWord w) rest := by
  intro hrest type rest' h' _
  cases h' with
  | word => exact ⟨rfl, rfl⟩
  | apply => cases hrest

theorem only_apply {w : String} {arguments : List TypeExpr}
    (ih : Only (reader .types) (orToken goesOn (.mark .comma)) ts arguments
      (.mark .greater :: rest)) :
    Only (reader .primary) isLess (.word w :: .mark .less :: ts) (.ref w arguments) rest := by
  intro _ type rest' h' hrest'
  cases h' with
  | word => cases hrest'
  | apply h' =>
    obtain ⟨rfl, heq⟩ := ih rfl h' rfl
    cases heq
    exact ⟨rfl, rfl⟩

theorem only_member {name : String} (ih : Only (reader .type) goesOn ts type rest) :
    Only memberReader goesOn (.word name :: .mark .colon :: ts) (name, type) rest :=
  ih.labelled fun _ _ => Token.word.inj

theorem only_name (name : String) (rest : List Token) :
    Only nameReader never (.word name :: rest) name rest := by
  refine .intro fun name' rest' heq => ?_
  cases heq
  exact ⟨rfl, rfl⟩

theorem only_generic {name : String} {params : List String}
    (ihparams : Only (reader .params) (orToken never (.mark .comma)) ts params
      (.mark .greater :: .mark .equals :: us))
    (ih : Only (reader .type) goesOn us type (.mark .semicolon :: rest)) :
    Only (reader .declaration) never
      (.word "export" :: .word "type" :: .word name :: .mark .less :: ts)
      ⟨name, params, type⟩ rest := by
  refine .intro fun d rest' h' => ?_
  cases h' with
  | generic hparams' h' =>
    obtain ⟨rfl, heq⟩ := ihparams rfl hparams' rfl
    cases heq
    obtain ⟨rfl, heq⟩ := ih rfl h' rfl
    cases heq
    exact ⟨rfl, rfl⟩

end

/-- **Tokens have at most one reading.**  Two readings of the same kind, both as long as they can
be, are the same. -/
theorem Derives.unique {ts rest : List Token} {p : Phrase} (h : Derives ts p rest) :
    p.Unique ts rest := by
  -- Each rule by itself; what is put together from phrases has one reading if they have.
  induction h with
  | word w rest => exact only_word w rest
  | text s rest =>
    refine Only.intro fun type rest' h' => ?_
    cases h' with
    | text => exact ⟨rfl, rfl⟩
  | apply h ih => exact only_apply ih
  | tuple h ih =>
    refine Only.map (Only.before ih rfl isLess) fun type rest h' => ?_
    cases h' with
    | tuple h' => exact ⟨_, h', rfl⟩
  | object h ih =>
    refine Only.intro fun type rest' h' => ?_
    cases h' with
    | object h' =>
      obtain ⟨rfl, rfl⟩ := ih _ rfl (startsWith_never _) h' (startsWith_never _)
      exact ⟨rfl, rfl⟩
  | alternative h ih => exact chained_alternatives.only_last ih
  | alternatives h hrest ih ihrest => exact chained_alternatives.only_cons ih ihrest
  | type h ih =>
    refine Only.map (f := TypeExpr.ofAlternatives) ih fun type rest h' => ?_
    cases h' with
    | type h' => exact ⟨_, h', rfl⟩
    | bar => exact absurd h Derives.not_bar
  | bar h ih =>
    refine Only.map (f := TypeExpr.ofAlternatives) ih fun type rest h' => ?_
    cases h' with
    | type h' => exact absurd h' Derives.not_bar
    | bar h' => exact ⟨_, h', rfl⟩
  | item h ih => exact chained_types.only_last ih
  | items h hrest ih ihrest => exact chained_types.only_cons ih ihrest
  | noMembers rest =>
    rintro us rfl
    exact separated_members.only_nil
  | lastMember h ih =>
    rintro us rfl
    exact separated_members.only_last (only_member ih) ⟨_, rfl, h⟩
  | member h hrest ih ihrest =>
    rintro us rfl
    exact separated_members.only_cons (only_member ih) (ihrest us rfl) ⟨_, rfl, h⟩
  | param name rest => exact chained_params.only_last (only_name name rest)
  | params h ih => exact chained_params.only_cons (only_name _ _) ih
  | @declaration name _ _ _ h ih =>
    refine Only.map (f := Declaration.mk name []) (Only.before ih rfl never)
      fun d rest h' => ?_
    cases h' with
    | declaration h' => exact ⟨_, h', rfl⟩
  | generic hparams h ihparams ih => exact only_generic ihparams ih
  | noDeclarations => exact many_declarations.only_nil
  | declarations h hrest ih ihrest =>
    exact many_declarations.only_cons ih ihrest h hrest fun _ _ _ _ _ => startsWith_never _

/-- **A text has at most one reading as a type.** -/
theorem Reads.unique {text : String} {type other : TypeExpr} (h : Reads text type)
    (hother : Reads text other) : type = other := by
  obtain ⟨tokens, htokens, hderives⟩ := h
  obtain ⟨tokens', htokens', hderives'⟩ := hother
  cases Option.some.inj (htokens.symm.trans htokens')
  exact (Derives.unique hderives' rfl hderives rfl).1

/-- **A text has at most one reading as a sequence of declarations.** -/
theorem ReadsAll.unique {text : String} {ds others : List Declaration} (h : ReadsAll text ds)
    (hothers : ReadsAll text others) : ds = others := by
  obtain ⟨tokens, htokens, hderives⟩ := h
  obtain ⟨tokens', htokens', hderives'⟩ := hothers
  cases Option.some.inj (htokens.symm.trans htokens')
  exact (Derives.unique hderives' rfl hderives rfl).1

end ElmWire.TypeScript
