import ElmWire.Elm.Codec
import ElmWire.Proofs.Elm.Token
import ElmWire.Proofs.Extraction.Offences
import ElmWire.Proofs.Readings

/-!
# Reading Elm types

A grammar for types, and what a text says according to it.  Applying a named type to arguments binds
tighter than the arrow, the arrow goes to the right, and brackets hold everything else together:
parentheses, tuples and records.  Blanks are of no consequence.

* `Derives tokens phrase rest` — the grammar: the tokens start with a phrase, behind which `rest`
  follows.
* `Derives.unique` — **a text has at most one reading**.  What makes it so is that a phrase ends
  where the next token cannot go on with it (`goesOn`).
* `TypeExpr.spells` — what is printed for a type reads as that type, on any page.
* `reads_render_iff` — so **a printed type has exactly one reading, the type itself**, and the type
  of a schema can be had back from it.
-/

set_option autoImplicit false
namespace ElmWire.Elm

open Layout

namespace TypeGrammar

/-! ## The grammar -/

/-- A part of a text. -/
inductive Phrase where
  /-- A type that may stand in a place. -/
  | type (place : TypePrec) (type : TypeExpr)
  /-- The arguments of a named type. -/
  | arguments (types : List TypeExpr)
  /-- Types with commas between them, up to the closing parenthesis. -/
  | items (types : List TypeExpr)
  /-- Fields with commas between them, up to the closing brace. -/
  | fields (fields : List (String × TypeExpr))

/-- What stands for the types in parentheses: nothing is the unit, a type is itself, and several are
a tuple. -/
def grouped : List TypeExpr → TypeExpr
  | [] => .unit
  | [type] => type
  | types => .tuple types

theorem grouped_eq_tuple {types : List TypeExpr} (h : 2 ≤ types.length) :
    grouped types = .tuple types := by
  fun_cases grouped types with
  | case1 | case2 => simp at h
  | case3 => rfl

/-- The tokens start with a phrase, and some are left. -/
inductive Derives : List Token → Phrase → List Token → Prop
  | name {n : String} (h : isQualified n = true) (rest : List Token) :
      Derives (.word n :: rest) (.type .argument (.named n [])) rest
  | group {types : List TypeExpr} {ts rest : List Token} (h : Derives ts (.items types) rest) :
      Derives (.mark .leftParen :: ts) (.type .argument (grouped types)) rest
  | record {fields : List (String × TypeExpr)} {ts rest : List Token}
      (h : Derives ts (.fields fields) rest) :
      Derives (.mark .leftBrace :: ts) (.type .argument (.record fields)) rest
  | atom {type : TypeExpr} {ts rest : List Token} (h : Derives ts (.type .argument type) rest) :
      Derives ts (.type .arrow type) rest
  | apply {n : String} {type : TypeExpr} {types : List TypeExpr} {ts rest : List Token}
      (hn : isQualified n = true) (h : Derives ts (.arguments (type :: types)) rest) :
      Derives (.word n :: ts) (.type .arrow (.named n (type :: types))) rest
  | operand {type : TypeExpr} {ts rest : List Token} (h : Derives ts (.type .arrow type) rest) :
      Derives ts (.type .top type) rest
  | arrow {argument result : TypeExpr} {ts us rest : List Token}
      (h : Derives ts (.type .arrow argument) (.mark .arrow :: us))
      (hresult : Derives us (.type .top result) rest) :
      Derives ts (.type .top (.function argument result)) rest
  | noArguments (rest : List Token) : Derives rest (.arguments []) rest
  | argument {type : TypeExpr} {types : List TypeExpr} {ts us rest : List Token}
      (h : Derives ts (.type .argument type) us) (hrest : Derives us (.arguments types) rest) :
      Derives ts (.arguments (type :: types)) rest
  | noItems (rest : List Token) : Derives (.mark .rightParen :: rest) (.items []) rest
  | lastItem {type : TypeExpr} {ts rest : List Token}
      (h : Derives ts (.type .top type) (.mark .rightParen :: rest)) :
      Derives ts (.items [type]) rest
  | item {type next : TypeExpr} {types : List TypeExpr} {ts us rest : List Token}
      (h : Derives ts (.type .top type) (.mark .comma :: us))
      (hrest : Derives us (.items (next :: types)) rest) :
      Derives ts (.items (type :: next :: types)) rest
  | noFields (rest : List Token) : Derives (.mark .rightBrace :: rest) (.fields []) rest
  | lastField {n : String} {type : TypeExpr} {ts rest : List Token} (hn : isIdentifier n = true)
      (h : Derives ts (.type .top type) (.mark .rightBrace :: rest)) :
      Derives (.word n :: .mark .colon :: ts) (.fields [(n, type)]) rest
  | field {n : String} {type : TypeExpr} {next : String × TypeExpr}
      {fields : List (String × TypeExpr)} {ts us rest : List Token} (hn : isIdentifier n = true)
      (h : Derives ts (.type .top type) (.mark .comma :: us))
      (hrest : Derives us (.fields (next :: fields)) rest) :
      Derives (.word n :: .mark .colon :: ts) (.fields ((n, type) :: next :: fields)) rest

/-- What the text says, if it is a type. -/
def Reads (text : String) (type : TypeExpr) : Prop :=
  Derives (tokens text.toList) (.type .top type) []

/-! ## Where phrases end -/

open Readings

/-- Does a type that needs no parentheses start with the token? -/
def startsAtom : Token → Bool
  | .word _ | .mark .leftParen | .mark .leftBrace => true
  | _ => false

/-- Does the token go on with what stands in the place?  It may be the start of an argument, or an
arrow. -/
def goesOn : TypePrec → Token → Bool
  | .argument => never
  | .arrow => startsAtom
  | .top => orToken startsAtom (.mark .arrow)

/-- The readings of a kind of phrase. -/
def reader {α : Type} (kind : α → Phrase) : Reader Token α :=
  fun ts a rest => Derives ts (kind a) rest

/-- An arrow and a type behind it, or nothing. -/
inductive ResultReader : Reader Token (Option TypeExpr)
  | none (rest : List Token) : ResultReader rest none rest
  | some {result : TypeExpr} {ts rest : List Token} (h : Derives ts (.type .top result) rest) :
      ResultReader (.mark .arrow :: ts) (some result) rest

def fieldReader : Reader Token (String × TypeExpr) :=
  labelled .word (.mark .colon) (reader (.type .top))

/-- The type of functions from a type to a result, if there is one. -/
def functionTo (type : TypeExpr) : Option TypeExpr → TypeExpr
  | none => type
  | some result => .function type result

namespace Derives

variable {ts rest : List Token} {place : TypePrec} {type : TypeExpr}

theorem starts (h : Derives ts (.type place type) rest) : startsWith startsAtom ts = true := by
  generalize hp : Phrase.type place type = p at h
  induction h generalizing place type with
  | name | group | record | apply => rfl
  | atom h ih => cases hp; exact ih rfl
  | operand h ih => cases hp; exact ih rfl
  | arrow h hresult ih => cases hp; exact ih rfl
  | _ => cases hp

theorem top_cases (h : Derives ts (.type .top type) rest) :
    ∃ head us result, Derives ts (.type .arrow head) us ∧ ResultReader us result rest ∧
      type = functionTo head result := by
  cases h with
  | operand h => exact ⟨_, _, none, h, .none _, rfl⟩
  | arrow h hresult => exact ⟨_, _, some _, h, .some hresult, rfl⟩

end Derives

/-- In front of a result, or of what follows if there is none, the argument ends. -/
theorem ResultReader.stops {ts rest : List Token} {result : Option TypeExpr}
    (h : ResultReader ts result rest) (hrest : startsWith (goesOn .top) rest = false) :
    startsWith startsAtom ts = false := by
  cases h with
  | none => exact (stops_of_orToken hrest).1
  | some => rfl

theorem many_arguments : Many (reader (.type .argument)) (reader .arguments) startsAtom where
  cases ts types rest h := by
    cases h with
    | noArguments => exact .inl ⟨rfl, rfl⟩
    | argument h hrest => exact .inr ⟨_, _, _, h, hrest, rfl⟩
  starts _ _ _ h := h.starts

theorem separated_items : Separated (reader (.type .top)) (reader .items) (goesOn .top)
    (.mark .comma) (.mark .rightParen) where
  cases ts types rest h := by
    cases h with
    | noItems => exact .inl ⟨rfl, rfl⟩
    | lastItem h => exact .inr (.inl ⟨_, h, rfl⟩)
    | item h hrest => exact .inr (.inr ⟨_, _, _, h, hrest, rfl⟩)
  not_closing _ _ _ h := Bool.false_ne_true h.starts
  apart := by decide
  comma_ends := rfl
  closing_ends := rfl

theorem separated_fields :
    Separated fieldReader (reader .fields) (goesOn .top) (.mark .comma) (.mark .rightBrace) where
  cases ts fields rest h := by
    cases h with
    | noFields => exact .inl ⟨rfl, rfl⟩
    | lastField _ h => exact .inr (.inl ⟨(_, _), ⟨_, rfl, h⟩, rfl⟩)
    | field _ h hrest => exact .inr (.inr ⟨(_, _), _, _, ⟨_, rfl, h⟩, hrest, rfl⟩)
  not_closing := by
    rintro ts field rest ⟨us, heq, -⟩
    cases heq
  apart := by decide
  comma_ends := rfl
  closing_ends := rfl

/-! ## At most one reading -/

/-- The phrase is the only one of its kind that the tokens start with. -/
def Phrase.Unique (ts rest : List Token) : Phrase → Prop
  | .type place t => Only (reader (.type place)) (goesOn place) ts t rest
  | .arguments types => Only (reader .arguments) startsAtom ts types rest
  | .items types => Only (reader .items) never ts types rest
  | .fields entries => Only (reader .fields) never ts entries rest

section

variable {ts us rest : List Token} {type result : TypeExpr}

/-- A type without arguments, where there could be some. -/
theorem only_atom (h : Derives ts (.type .argument type) rest)
    (ih : Only (reader (.type .argument)) (goesOn .argument) ts type rest) :
    Only (reader (.type .arrow)) (goesOn .arrow) ts type rest := by
  intro hrest type' rest' h' _
  cases h' with
  | atom h' => exact ih (startsWith_never _) h' (startsWith_never _)
  | apply hn h' =>
    -- The first reading is the name alone, and leaves the arguments.
    cases h with
    | name =>
      cases h' with
      | argument h' => exact absurd h'.starts (ne_true_of_eq_false hrest)

theorem only_apply {n : String} {types : List TypeExpr}
    (h : Derives ts (.arguments (type :: types)) rest)
    (ih : Only (reader .arguments) startsAtom ts (type :: types) rest) :
    Only (reader (.type .arrow)) (goesOn .arrow) (.word n :: ts) (.named n (type :: types))
      rest := by
  intro hrest type' rest' h' hrest'
  cases h' with
  | atom h' =>
    cases h' with
    | name =>
      cases h with
      | argument h => exact absurd h.starts (ne_true_of_eq_false hrest')
  | apply hn' h' =>
    obtain ⟨heq, rfl⟩ := ih hrest h' hrest'
    cases heq
    exact ⟨rfl, rfl⟩

theorem only_noResult : Only ResultReader (goesOn .top) rest none rest := by
  intro hrest result rest' h' _
  cases h' with
  | none => exact ⟨rfl, rfl⟩
  | some => cases hrest

theorem only_result (ih : Only (reader (.type .top)) (goesOn .top) ts result rest) :
    Only ResultReader (goesOn .top) (.mark .arrow :: ts) (some result) rest := by
  intro hrest result' rest' h' hrest'
  cases h' with
  | none => cases hrest'
  | some h' =>
    obtain ⟨rfl, rfl⟩ := ih hrest h' hrest'
    exact ⟨rfl, rfl⟩

theorem only_field {n : String} (ih : Only (reader (.type .top)) (goesOn .top) ts type rest) :
    Only fieldReader (goesOn .top) (.word n :: .mark .colon :: ts) (n, type) rest :=
  ih.labelled fun _ _ => Token.word.inj

end

/-- **A text has at most one reading.**  Two readings of the same kind, both as long as they can be,
are the same. -/
theorem Derives.unique {ts rest : List Token} {p : Phrase} (h : Derives ts p rest) :
    p.Unique ts rest := by
  -- Each rule by itself; what is put together from phrases has one reading if they have.
  induction h with
  | name hn rest =>
    refine Only.intro fun type rest' h' => ?_
    cases h' with
    | name => exact ⟨rfl, rfl⟩
  | group h ih =>
    refine Only.map ih fun type rest h' => ?_
    cases h' with
    | group h' => exact ⟨_, h', rfl⟩
  | record h ih =>
    refine Only.map ih fun type rest h' => ?_
    cases h' with
    | record h' => exact ⟨_, h', rfl⟩
  | atom h ih => exact only_atom h ih
  | apply hn h ih => exact only_apply h ih
  | operand h ih =>
    exact Only.seq (f := functionTo) ih only_noResult (.none _) (fun _ _ _ => ResultReader.stops)
      fun _ _ h' => h'.top_cases
  | arrow h hresult ih ihresult =>
    exact Only.seq (f := functionTo) ih (only_result ihresult) (.some hresult)
      (fun _ _ _ => ResultReader.stops) fun _ _ h' => h'.top_cases
  | noArguments rest => exact many_arguments.only_nil
  | argument h hrest ih ihrest =>
    exact many_arguments.only_cons ih ihrest h hrest fun _ _ _ _ _ => startsWith_never _
  | noItems rest => exact separated_items.only_nil
  | lastItem h ih => exact separated_items.only_last ih h
  | item h hrest ih ihrest => exact separated_items.only_cons ih ihrest h
  | noFields rest => exact separated_fields.only_nil
  | lastField hn h ih => exact separated_fields.only_last (only_field ih) ⟨_, rfl, h⟩
  | field hn h hrest ih ihrest =>
    exact separated_fields.only_cons (only_field ih) ihrest ⟨_, rfl, h⟩

theorem Reads.unique {text : String} {type type' : TypeExpr} (h : Reads text type)
    (h' : Reads text type') : type' = type :=
  (Derives.unique h rfl h' rfl).1

/-! ## Printed types -/

/-- What needs no parentheses may stand everywhere. -/
theorem Derives.anywhere {ts rest : List Token} {type : TypeExpr}
    (h : Derives ts (.type .argument type) rest) (place : TypePrec) :
    Derives ts (.type place type) rest := by
  cases place with
  | top => exact .operand (.atom h)
  | arrow => exact .atom h
  | argument => exact h

/-- A text that reads as a phrase in front of whatever does not go on with a token. -/
def Spells (text : String) (p : Phrase) : Prop :=
  ∀ cs, Boundary cs → Derives (tokens (text.toList ++ cs)) p (tokens cs)

end TypeGrammar

open TypeGrammar

mutual

/-- The type has names that Elm allows, and at least two items in every tuple. -/
@[simp] def TypeExpr.isProper : TypeExpr → Bool
  | .named name arguments => isQualified name && areProper arguments
  | .unit => true
  | .tuple items => 2 ≤ items.length && areProper items
  | .record fields => areProperFields fields
  | .function argument result => argument.isProper && result.isProper

/-- All the types are proper. -/
@[simp] def areProper : List TypeExpr → Bool
  | [] => true
  | type :: rest => type.isProper && areProper rest

/-- All the fields have proper types and names that Elm allows. -/
@[simp] def areProperFields : List (String × TypeExpr) → Bool
  | [] => true
  | (name, type) :: rest => isIdentifier name && type.isProper && areProperFields rest

end

/-- Parentheses around what reads as a type. -/
theorem spells_parens {text : String} {type : TypeExpr} (h : Spells text (.type .top type)) :
    Spells ("(" ++ text ++ ")") (.type .argument type) := by
  intro cs _
  have hparens : ("(" ++ text ++ ")").toList ++ cs = '(' :: (text.toList ++ ')' :: cs) := by simp
  have hclose : tokens (')' :: cs) = .mark .rightParen :: tokens cs :=
    tokens_single (by decide) (by decide) cs
  have hitem := h (')' :: cs) (boundary_cons (by decide) cs)
  rw [hclose] at hitem
  rw [hparens, tokens_single (by decide) (by decide)]
  exact .group (.lastItem hitem)

theorem spells_name {name : String} (h : isQualified name = true) :
    Spells name (.type .argument (.named name [])) := by
  intro cs hcs
  obtain ⟨hne, hchars⟩ := chars_of_isQualified h
  rw [tokens_word hne hchars hcs]
  exact .name h _

/-- The name of a field, in front of its type. -/
theorem tokens_fieldName {name : String} (h : isIdentifier name = true) (d : Doc) (cs : List Char) :
    tokens ((Doc.text (name ++ " : ") ++ d).oneLine.toList ++ cs) =
      .word name :: .mark .colon :: tokens (d.oneLine.toList ++ cs) := by
  obtain ⟨hne, hchars⟩ := chars_of_isIdentifier h
  have htext : (Doc.text (name ++ " : ") ++ d).oneLine.toList ++ cs =
      name.toList ++ ' ' :: ':' :: ' ' :: (d.oneLine.toList ++ cs) := by
    simp [Doc.oneLine_append, Doc.oneLine]
  rw [htext, tokens_word hne (fun c hc => isWordChar_of_isNameChar (hchars c hc))
    (boundary_cons (by decide) _), tokens_colon]

theorem typeDocs_eq_map (prec : TypePrec) (types : List TypeExpr) :
    typeDocs prec types = types.map (TypeExpr.toDocIn prec) := by
  induction types with
  | nil => rw [typeDocs]; rfl
  | cons type rest ih => rw [typeDocs, ih]; rfl

theorem typeFieldDocs_eq_map (fields : List (String × TypeExpr)) :
    typeFieldDocs fields = fields.map fun field =>
      Doc.text (field.1 ++ " : ") ++ field.2.toDocIn .top := by
  induction fields with
  | nil => rw [typeFieldDocs]; rfl
  | cons field rest ih => rw [typeFieldDocs, ih]; rfl

theorem spells_arguments {types : List TypeExpr}
    (h : ∀ type ∈ types, Spells (type.toDocIn .argument).oneLine (.type .argument type)) :
    Spells (spaced (typeDocs .argument types)) (.arguments types) := by
  intro cs hcs
  rw [typeDocs_eq_map]
  refine reads_spaced (R := fun types ts rest => Derives ts (.arguments types) rest)
    .noArguments (fun type htype others cs rest hcs hothers => ?_) hcs
  exact .argument (h type htype cs hcs) hothers

theorem spells_tuple {types : List TypeExpr} (hlength : 2 ≤ types.length)
    (h : ∀ type ∈ types, Spells (type.toDocIn .top).oneLine (.type .top type)) :
    Spells (sequence "(" (typeDocs .top types) ")").oneLine (.type .argument (.tuple types)) := by
  have hitem : ∀ type ∈ types, ReadsItem (fun types ts rest => Derives ts (.items types) rest)
      (TypeExpr.toDocIn .top) .rightParen type := by
    intro type htype
    constructor
    · intro cs rest hcs hclosing
      have hlast := h type htype cs hcs
      rw [hclosing] at hlast
      exact .lastItem hlast
    · intro next others cs us rest hcs hcomma hothers
      have hfirst := h type htype cs hcs
      rw [hcomma] at hfirst
      exact .item hfirst hothers
  intro cs _
  obtain ⟨ts, htokens, hitems⟩ := reads_sequence (o := "(") (c := ")")
    (tokens_single (by decide) (by decide)) (tokens_single (by decide) (by decide))
    .noItems hitem cs
  rw [typeDocs_eq_map, ← grouped_eq_tuple hlength, htokens]
  exact .group hitems

theorem spells_record {fields : List (String × TypeExpr)}
    (h : ∀ field ∈ fields, isIdentifier field.1 = true ∧
      Spells (field.2.toDocIn .top).oneLine (.type .top field.2)) :
    Spells (sequence "\x7b" (typeFieldDocs fields) "\x7d").oneLine
      (.type .argument (.record fields)) := by
  have hitem : ∀ field ∈ fields, ReadsItem (fun fields ts rest => Derives ts (.fields fields) rest)
      (fun field => Doc.text (field.1 ++ " : ") ++ field.2.toDocIn .top) .rightBrace field := by
    intro field hfield
    obtain ⟨hname, htype⟩ := h field hfield
    constructor
    · intro cs rest hcs hclosing
      have hlast := htype cs hcs
      rw [hclosing] at hlast
      rw [tokens_fieldName hname]
      exact .lastField hname hlast
    · intro next others cs us rest hcs hcomma hothers
      have hfirst := htype cs hcs
      rw [hcomma] at hfirst
      rw [tokens_fieldName hname]
      exact .field hname hfirst hothers
  intro cs _
  obtain ⟨ts, htokens, hfields⟩ := reads_sequence (o := "\x7b") (c := "\x7d")
    (tokens_single (by decide) (by decide)) (tokens_single (by decide) (by decide))
    .noFields hitem cs
  rw [typeFieldDocs_eq_map, htokens]
  exact .record hfields

mutual

/-- **What is printed for a type reads as the type**, in every place. -/
theorem TypeExpr.spells : ∀ (type : TypeExpr) (place : TypePrec), type.isProper = true →
    Spells (type.toDocIn place).oneLine (.type place type)
  | .named name [], place, h => by
    obtain ⟨hname, -⟩ := Bool.and_eq_true_iff.1 h
    intro cs hcs
    rw [TypeExpr.toDocIn]
    exact (spells_name hname cs hcs).anywhere place
  | .named name (first :: rest), place, h => by
    obtain ⟨hname, harguments⟩ := Bool.and_eq_true_iff.1 h
    obtain ⟨hne, hchars⟩ := chars_of_isQualified hname
    have happly : Spells (spread (.text name) (typeDocs .argument (first :: rest))).oneLine
        (.type .arrow (.named name (first :: rest))) := by
      intro cs hcs
      rw [oneLine_spread, String.toList_append, List.append_assoc, Doc.oneLine,
        tokens_word hne hchars (boundary_spaced _ hcs)]
      exact .apply hname (spells_arguments (fun type htype =>
        spellsAll (first :: rest) harguments type htype .argument) cs hcs)
    rw [TypeExpr.toDocIn, oneLine_parens]
    · cases place with
      | top => exact fun cs hcs => .operand (happly cs hcs)
      | arrow => exact happly
      | argument => exact spells_parens fun cs hcs => .operand (happly cs hcs)
    · exact List.cons_ne_nil first rest
  | .unit, place, _ => by
    intro cs _
    rw [TypeExpr.toDocIn]
    show Derives (tokens ('(' :: ')' :: cs)) _ _
    rw [tokens_single (by decide) (by decide), tokens_single (by decide) (by decide)]
    exact (Derives.group (.noItems _)).anywhere place
  | .tuple items, place, h => by
    obtain ⟨hlength, hitems⟩ := Bool.and_eq_true_iff.1 h
    have htuple := spells_tuple (of_decide_eq_true hlength)
      fun type htype => spellsAll items hitems type htype .top
    rw [TypeExpr.toDocIn]
    exact fun cs hcs => (htuple cs hcs).anywhere place
  | .record fields, place, h => by
    rw [TypeExpr.toDocIn]
    exact fun cs hcs => (spells_record (spellsFields fields h) cs hcs).anywhere place
  | .function argument result, place, h => by
    obtain ⟨hargument, hresult⟩ := Bool.and_eq_true_iff.1 h
    have harrow : Spells (argument.toDocIn .arrow ++ .text " -> " ++ result.toDocIn .top).oneLine
        (.type .top (.function argument result)) := by
      intro cs hcs
      have htext :
          (argument.toDocIn .arrow ++ .text " -> " ++ result.toDocIn .top).oneLine.toList ++ cs =
          (argument.toDocIn .arrow).oneLine.toList ++
            ' ' :: '-' :: '>' :: ' ' :: ((result.toDocIn .top).oneLine.toList ++ cs) := by
        simp [Doc.oneLine_append, Doc.oneLine]
      have hleft := argument.spells .arrow hargument
        (' ' :: '-' :: '>' :: ' ' :: ((result.toDocIn .top).oneLine.toList ++ cs))
        (boundary_cons (by decide) _)
      rw [tokens_arrow] at hleft
      rw [htext]
      exact .arrow hleft (result.spells .top hresult cs hcs)
    rw [TypeExpr.toDocIn, oneLine_parens]
    cases place with
    | top => exact harrow
    | arrow => exact fun cs hcs => .atom (spells_parens harrow cs hcs)
    | argument => exact spells_parens harrow

theorem spellsAll : ∀ (types : List TypeExpr), areProper types = true → ∀ type ∈ types, ∀ place,
    Spells (type.toDocIn place).oneLine (.type place type)
  | [], _ => List.forall_mem_nil _
  | type :: rest, h => by
    obtain ⟨htype, hrest⟩ := Bool.and_eq_true_iff.1 h
    exact List.forall_mem_cons.2 ⟨fun place => type.spells place htype, spellsAll rest hrest⟩

theorem spellsFields : ∀ (fields : List (String × TypeExpr)), areProperFields fields = true →
    ∀ field ∈ fields, isIdentifier field.1 = true ∧
      Spells (field.2.toDocIn .top).oneLine (.type .top field.2)
  | [], _ => List.forall_mem_nil _
  | (name, type) :: rest, h => by
    obtain ⟨h, hrest⟩ := Bool.and_eq_true_iff.1 h
    obtain ⟨hname, htype⟩ := Bool.and_eq_true_iff.1 h
    exact List.forall_mem_cons.2 ⟨⟨hname, type.spells .top htype⟩, spellsFields rest hrest⟩

end

/-! ## Terms and types of a schema -/

mutual

/-- The type as it is written in a module.  A name is that of a type if it is capitalised, and
otherwise a variable. -/
def TypeExpr.toTerm : TypeExpr → Source.TypeTerm
  | .named name arguments =>
    if isCapitalised name then .named name (toTerms arguments) else .var name
  | .unit => .unit
  | .tuple items => .tuple (toTerms items)
  | .record fields => .record (fieldTerms fields)
  | .function argument result => .function argument.toTerm result.toTerm

/-- Several types as they are written. -/
def toTerms : List TypeExpr → List Source.TypeTerm
  | [] => []
  | type :: rest => type.toTerm :: toTerms rest

/-- The fields of a record type as they are written. -/
def fieldTerms : List (String × TypeExpr) → List (String × Source.TypeTerm)
  | [] => []
  | (name, type) :: rest => (name, type.toTerm) :: fieldTerms rest

end

theorem toTerm_named {name : String} (h : isCapitalised name = true) (arguments : List TypeExpr) :
    (TypeExpr.named name arguments).toTerm = .named name (toTerms arguments) := by
  rw [TypeExpr.toTerm, if_pos h]

mutual

/-- The type of a schema is printed as it is written. -/
theorem toTerm_toElm : ∀ type : Ty, (∀ name ∈ type.references, isCapitalised name = true) →
    type.toElm.toTerm = type.written
  | .unit, _ => rfl
  | .bool, _ | .int, _ | .float, _ | .char, _ | .string, _ => toTerm_named (by decide) []
  | .named name, h => toTerm_named (h name (List.mem_singleton.2 rfl)) []
  | .list item, h | .maybe item, h => by
    rw [Ty.toElm, toTerm_named (by decide), toTerms, toTerms, toTerm_toElm item h, Ty.written]
  | .pair first second, h => by
    obtain ⟨hfirst, hsecond⟩ := List.forall_mem_append.1 h
    rw [Ty.toElm, TypeExpr.toTerm, toTerms, toTerms, toTerms, toTerm_toElm first hfirst,
      toTerm_toElm second hsecond, Ty.written]
  | .triple first second third, h => by
    obtain ⟨h, hthird⟩ := List.forall_mem_append.1 h
    obtain ⟨hfirst, hsecond⟩ := List.forall_mem_append.1 h
    rw [Ty.toElm, TypeExpr.toTerm, toTerms, toTerms, toTerms, toTerms, toTerm_toElm first hfirst,
      toTerm_toElm second hsecond, toTerm_toElm third hthird, Ty.written]
  | .record fields, h => by
    rw [Ty.toElm, TypeExpr.toTerm, fieldTerms_fieldTypes fields h, Ty.written]
  | .result error ok, h => by
    obtain ⟨herror, hok⟩ := List.forall_mem_append.1 h
    rw [Ty.toElm, toTerm_named (by decide), toTerms, toTerms, toTerms, toTerm_toElm error herror,
      toTerm_toElm ok hok, Ty.written]

theorem fieldTerms_fieldTypes : ∀ fields : List (String × Ty),
    (∀ name ∈ fieldReferences fields, isCapitalised name = true) →
    fieldTerms (fieldTypes fields) = writtenFields fields
  | [], _ => rfl
  | (name, type) :: rest, h => by
    obtain ⟨htype, hrest⟩ := List.forall_mem_append.1 h
    rw [fieldTypes, fieldTerms, toTerm_toElm type htype, fieldTerms_fieldTypes rest hrest,
      writtenFields]

end

mutual

theorem isProper_toElm : ∀ type : Ty, (∀ name ∈ type.references, isQualified name = true) →
    (∀ fields ∈ type.records, ∀ field ∈ fields, isIdentifier field.1 = true) →
    type.toElm.isProper = true
  | .unit, _, _ | .bool, _, _ | .int, _, _ | .float, _, _ | .char, _, _ | .string, _, _ => rfl
  | .named name, hnames, _ => by
    simp [Ty.toElm, hnames name (List.mem_singleton.2 rfl)]
  | .list item, hnames, hfields | .maybe item, hnames, hfields => by
    have hitem := isProper_toElm item hnames hfields
    simp only [Ty.toElm, TypeExpr.isProper, areProper, hitem]
    rfl
  | .pair first second, hnames, hfields => by
    obtain ⟨hnames, hnames'⟩ := List.forall_mem_append.1 hnames
    obtain ⟨hfields, hfields'⟩ := List.forall_mem_append.1 hfields
    simp [Ty.toElm, isProper_toElm first hnames hfields, isProper_toElm second hnames' hfields']
  | .triple first second third, hnames, hfields => by
    obtain ⟨hnames, hthird⟩ := List.forall_mem_append.1 hnames
    obtain ⟨hfirst, hsecond⟩ := List.forall_mem_append.1 hnames
    obtain ⟨hfields, hthird'⟩ := List.forall_mem_append.1 hfields
    obtain ⟨hfirst', hsecond'⟩ := List.forall_mem_append.1 hfields
    simp [Ty.toElm, isProper_toElm first hfirst hfirst', isProper_toElm second hsecond hsecond',
      isProper_toElm third hthird hthird']
  | .record fields, hnames, hfields => by
    obtain ⟨hown, hfields⟩ := List.forall_mem_cons.1 hfields
    exact areProperFields_fieldTypes fields hown hnames hfields
  | .result error ok, hnames, hfields => by
    obtain ⟨hnames, hnames'⟩ := List.forall_mem_append.1 hnames
    obtain ⟨hfields, hfields'⟩ := List.forall_mem_append.1 hfields
    have herror := isProper_toElm error hnames hfields
    have hok := isProper_toElm ok hnames' hfields'
    simp only [Ty.toElm, TypeExpr.isProper, areProper, herror, hok]
    rfl

theorem areProperFields_fieldTypes : ∀ fields : List (String × Ty),
    (∀ field ∈ fields, isIdentifier field.1 = true) →
    (∀ name ∈ fieldReferences fields, isQualified name = true) →
    (∀ record ∈ fieldRecords fields, ∀ field ∈ record, isIdentifier field.1 = true) →
    areProperFields (fieldTypes fields) = true
  | [], _, _, _ => rfl
  | (name, type) :: rest, hown, hnames, hfields => by
    obtain ⟨hname, hown⟩ := List.forall_mem_cons.1 hown
    obtain ⟨hnames, hnames'⟩ := List.forall_mem_append.1 hnames
    obtain ⟨hfields, hfields'⟩ := List.forall_mem_append.1 hfields
    have htype := isProper_toElm type hnames hfields
    have hrest := areProperFields_fieldTypes rest hown hnames' hfields'
    simp only [fieldTypes, areProperFields, hname, htype, hrest]
    rfl

end

/-! ## Reading back -/

theorem reads_render {type : TypeExpr} (h : type.isProper = true) (width : Nat) :
    Reads (render width type.toDoc) type := by
  have hspells := type.spells .top h [] boundary_nil
  rw [List.append_nil] at hspells
  rw [Reads, TypeExpr.toDoc, tokens_render (type.uniform .top)]
  exact hspells

/-- **A printed type reads back**, on a page of any width.  If its names are such as Elm allows and
its tuples have two items at least, it has one reading, which is the type; so it is told apart from
any other.  For a type of a schema whose references are names of types, that reading is one that
stands for the type. -/
theorem reads_render_iff (width : Nat) :
    (∀ type : TypeExpr, type.isProper = true →
      ∀ reading, Reads (render width type.toDoc) reading ↔ reading = type) ∧
    ∀ type : Ty, (∀ name ∈ type.references, isCapitalised name = true) → type.RefersPlainly →
      (∀ fields ∈ type.records, ∀ field ∈ fields, isIdentifier field.1 = true) →
      ∃ written : TypeExpr, written.toTerm.toTy = .ok type ∧
        ∀ reading, Reads (render width type.toElm.toDoc) reading ↔ reading = written := by
  have hproper : ∀ type : TypeExpr, type.isProper = true →
      ∀ reading, Reads (render width type.toDoc) reading ↔ reading = type := by
    intro type htype reading
    have hreads := reads_render htype width
    exact ⟨hreads.unique, fun heq => heq ▸ hreads⟩
  refine ⟨hproper, fun type hnames hplain hfields => ⟨type.toElm, ?_, ?_⟩⟩
  · rw [toTerm_toElm type hnames]
    exact (type.denotes_written hplain).toTy_eq
  · have hqualified : ∀ name ∈ type.references, isQualified name = true :=
      fun name hname => isQualified_of_isCapitalised (hnames name hname)
    exact hproper _ (isProper_toElm type hqualified hfields)

/-- A function that takes a function, and gives a record with an application in an application. -/
def rowReader : TypeExpr :=
  .function (.function (.named "a" []) (.named "Maybe" [.named "Row" []]))
    (.record [("rows", .named "List" [.tuple [.named "Dict.Dict" [.named "String" [], .unit],
      .named "a" []]])])

/-- The rows that were read, or what went wrong. -/
def rowsOrProblem : Ty :=
  .result (.named "Problem") (.record [("rows", .list (.pair .int (.maybe (.named "Row"))))])

/-- A page of 20 columns is too narrow for either type. -/
theorem reads_rowReader :
    rowReader.isProper = true ∧
    (∀ reading, Reads (render 20 rowReader.toDoc) reading ↔ reading = rowReader) ∧
    (∀ name ∈ rowsOrProblem.references, isCapitalised name = true) ∧ rowsOrProblem.RefersPlainly ∧
    (∀ fields ∈ rowsOrProblem.records, ∀ field ∈ fields, isIdentifier field.1 = true) ∧
    ∃ written : TypeExpr, written.toTerm.toTy = .ok rowsOrProblem ∧
      ∀ reading, Reads (render 20 rowsOrProblem.toElm.toDoc) reading ↔ reading = written := by
  have hproper : rowReader.isProper = true := by decide
  have hnames : ∀ name ∈ rowsOrProblem.references, isCapitalised name = true := by decide
  have hplain : rowsOrProblem.RefersPlainly := by decide
  have hfields : ∀ fields ∈ rowsOrProblem.records, ∀ field ∈ fields,
      isIdentifier field.1 = true := by decide
  obtain ⟨hexpr, hty⟩ := reads_render_iff 20
  exact ⟨hproper, hexpr rowReader hproper, hnames, hplain, hfields,
    hty rowsOrProblem hnames hplain hfields⟩

end ElmWire.Elm
