import ElmWire.Json.Printer
import ElmWire.Json.Reader
import ElmWire.Source.Module

/-!
# Elm modules as JSON

The form in which a parser hands over a module.  `Module.toJson` writes it, and `Module.parse?`
reads it back from any of its spellings: members in any order, further members that are passed
over, arrays in place of objects, and empty lists of imports, declarations, parameters and
arguments left out.

Type terms nest, so reading one follows the nesting of its form, which is bounded by the depth of
the form.
-/

set_option autoImplicit false
namespace ElmWire.Source

open Json (Form)
open Json.Form (required optional)

/-! ## Writing -/

/-- A list of strings as JSON. -/
def namesToJson (names : List String) : Json := .array (names.map Json.string)

/-- The word for a kind of module. -/
def ModuleKind.word : ModuleKind → String
  | .normal => "normal"
  | .port => "port"
  | .effect => "effect"

/-- An exposing clause as JSON. -/
def Exposing.toJson : Exposing → Json
  | .all => .object [("kind", .string "all")]
  | .explicit names => .object [("kind", .string "explicit"), ("names", namesToJson names)]

/-- An import as JSON. -/
def Import.toJson (i : Import) : Json := .object [("module", .string i.name)]

mutual

/-- A type term as JSON. -/
def TypeTerm.toJson : TypeTerm → Json
  | .var name => .object [("kind", .string "genericType"), ("name", .string name)]
  | .named name arguments =>
    .object [("kind", .string "typed"), ("name", .string name),
      ("arguments", .array (typeTermsToJson arguments))]
  | .unit => .object [("kind", .string "unit")]
  | .tuple items =>
    .object [("kind", .string "tupled"), ("items", .array (typeTermsToJson items))]
  | .record fields =>
    .object [("kind", .string "record"), ("fields", .array (fieldsToJson fields))]
  | .extension base fields =>
    .object [("kind", .string "genericRecord"), ("variable", .string base),
      ("fields", .array (fieldsToJson fields))]
  | .function argument result =>
    .object [("kind", .string "function"), ("argument", argument.toJson),
      ("result", result.toJson)]

/-- Several type terms as JSON. -/
def typeTermsToJson : List TypeTerm → List Json
  | [] => []
  | written :: rest => written.toJson :: typeTermsToJson rest

/-- The fields of a record as JSON. -/
def fieldsToJson : List (String × TypeTerm) → List Json
  | [] => []
  | (name, written) :: rest =>
    .object [("name", .string name), ("annotation", written.toJson)] :: fieldsToJson rest

end

/-- A constructor as JSON. -/
def Constructor.toJson (c : Constructor) : Json :=
  .object [("name", .string c.name), ("arguments", .array (c.arguments.map TypeTerm.toJson))]

/-- A declaration as JSON. -/
def Declaration.toJson : Declaration → Json
  | .value name => .object [("kind", .string "value"), ("name", .string name)]
  | .destructuring => .object [("kind", .string "destructuring")]
  | .alias name parameters written =>
    .object [("kind", .string "typeAlias"), ("name", .string name),
      ("generics", namesToJson parameters), ("annotation", written.toJson)]
  | .custom name parameters constructors =>
    .object [("kind", .string "customType"), ("name", .string name),
      ("generics", namesToJson parameters),
      ("constructors", .array (constructors.map Constructor.toJson))]
  | .port name written =>
    .object [("kind", .string "portSignature"), ("name", .string name),
      ("annotation", written.toJson)]
  | .operator symbol function =>
    .object [("kind", .string "infix"), ("operator", .string symbol),
      ("function", .string function)]

/-- A module as JSON. -/
def Module.toJson (m : Module) : Json :=
  .object [("name", .string m.name), ("kind", .string m.kind.word),
    ("exposing", m.exposing.toJson), ("imports", .array (m.imports.map Import.toJson)),
    ("declarations", .array (m.declarations.map Declaration.toJson))]

/-! ## Reading -/

/-- Reads a kind of module, given as a word or as an object with the word as its only name. -/
def ModuleKind.ofForm? : Form → Option ModuleKind
  | .string (some word) => ofWord? word
  | .object [(some word, .null)] => ofWord? word
  | _ => none
where
  ofWord? (word : String) : Option ModuleKind :=
    [ModuleKind.normal, .port, .effect].find? fun kind => kind.word = word

/-- Reads the kind and the fields of tagged data that is not part of other tagged data. -/
def tagged? (kinds : List String) (form : Form) : Option (String × Form) := do
  let (kind, fields) ← form.tagged? "kind"
  let _ ← form.evaluate?
  pure (← kind.kind? kinds false, fields)

/-- Reads a list of strings. -/
def names? : Form → Option (List String) := Form.list? Form.text?

/-- Reads an exposing clause. -/
def Exposing.ofForm? (form : Form) : Option Exposing := do
  match ← tagged? ["all", "explicit"] form with
  | ("all", fields) => do
    let _ ← fields.noFields?
    pure .all
  | (_, fields) =>
    match ← fields.fields? ["names"] with
    | [names] => return .explicit (← required names? names)
    | _ => none

/-- Reads an import. -/
def Import.ofForm? (form : Form) : Option Import := do
  match ← form.fields? ["module"] with
  | [name] => return ⟨← required Form.text? name⟩
  | _ => none

/-- The kinds of type terms, in their order. -/
def typeTermKinds : List String :=
  ["genericType", "typed", "unit", "tupled", "record", "genericRecord", "function"]

/-- Reads a field of a record, given a reader for type terms. -/
def fieldOfForm? (part? : Form → Option TypeTerm) (form : Form) :
    Option (String × TypeTerm) := do
  match ← form.fields? ["name", "annotation"] with
  | [name, written] => return (← required Form.text? name, ← required part? written)
  | _ => none

/-- Reads the fields of a type term of a known kind, given a reader for the type terms in it. -/
def TypeTerm.ofFields? (part? : Form → Option TypeTerm) (kind : String) (fields : Form) :
    Option TypeTerm := do
  match kind with
  | "genericType" =>
    match ← fields.fields? ["name"] with
    | [name] => return .var (← required Form.text? name)
    | _ => none
  | "typed" =>
    match ← fields.fields? ["name", "arguments"] with
    | [name, arguments] =>
      return .named (← required Form.text? name)
        (← optional [] (Form.list? part?) arguments)
    | _ => none
  | "unit" =>
    let _ ← fields.noFields?
    pure .unit
  | "tupled" =>
    match ← fields.fields? ["items"] with
    | [items] => return .tuple (← required (Form.list? part?) items)
    | _ => none
  | "record" =>
    match ← fields.fields? ["fields"] with
    | [fields] => return .record (← required (Form.list? (fieldOfForm? part?)) fields)
    | _ => none
  | "genericRecord" =>
    match ← fields.fields? ["variable", "fields"] with
    | [base, fields] =>
      return .extension (← required Form.text? base)
        (← required (Form.list? (fieldOfForm? part?)) fields)
    | _ => none
  | "function" =>
    match ← fields.fields? ["argument", "result"] with
    | [argument, result] =>
      return .function (← required part? argument) (← required part? result)
    | _ => none
  | _ => none

/-- Reads a type term that is part of other tagged data and nested at most `depth` deep. -/
def TypeTerm.nested? : Nat → Form → Option TypeTerm
  | 0, _ => none
  | depth + 1, form => do
    let (kind, fields) ← form.tagged? "kind"
    TypeTerm.ofFields? (nested? depth) (← kind.kind? typeTermKinds true) fields

/-- Reads a type term that stands on its own. -/
def TypeTerm.ofForm? (form : Form) : Option TypeTerm := do
  let (kind, fields) ← tagged? typeTermKinds form
  TypeTerm.ofFields? (nested? form.depth) kind fields

/-- Reads a constructor, given a reader for type terms. -/
def Constructor.ofForm? (part? : Form → Option TypeTerm) (form : Form) :
    Option Constructor := do
  match ← form.fields? ["name", "arguments"] with
  | [name, arguments] =>
    return ⟨← required Form.text? name, ← optional [] (Form.list? part?) arguments⟩
  | _ => none

/-- The kinds of declarations, in their order. -/
def declarationKinds : List String :=
  ["value", "destructuring", "typeAlias", "customType", "portSignature", "infix"]

/-- Reads a declaration. -/
def Declaration.ofForm? (form : Form) : Option Declaration := do
  let (kind, fields) ← tagged? declarationKinds form
  let part? := TypeTerm.nested? form.depth
  match kind with
  | "value" =>
    match ← fields.fields? ["name"] with
    | [name] => return .value (← required Form.text? name)
    | _ => none
  | "destructuring" =>
    let _ ← fields.noFields?
    pure .destructuring
  | "typeAlias" =>
    match ← fields.fields? ["name", "generics", "annotation"] with
    | [name, parameters, written] =>
      return .alias (← required Form.text? name) (← optional [] names? parameters)
        (← required part? written)
    | _ => none
  | "customType" =>
    match ← fields.fields? ["name", "generics", "constructors"] with
    | [name, parameters, constructors] =>
      return .custom (← required Form.text? name) (← optional [] names? parameters)
        (← required (Form.list? (Constructor.ofForm? part?)) constructors)
    | _ => none
  | "portSignature" =>
    match ← fields.fields? ["name", "annotation"] with
    | [name, written] =>
      return .port (← required Form.text? name) (← required part? written)
    | _ => none
  | "infix" =>
    match ← fields.fields? ["operator", "function"] with
    | [symbol, function] =>
      return .operator (← required Form.text? symbol) (← required Form.text? function)
    | _ => none
  | _ => none

/-- Reads a module. -/
def Module.ofForm? (form : Form) : Option Module := do
  match ← form.fields? ["name", "kind", "exposing", "imports", "declarations"] with
  | [name, kind, exposing, imports, declarations] =>
    return {
      name := ← required Form.text? name
      kind := ← required ModuleKind.ofForm? kind
      exposing := ← required Exposing.ofForm? exposing
      imports := ← optional [] (Form.list? Import.ofForm?) imports
      declarations := ← optional [] (Form.list? Declaration.ofForm?) declarations }
  | _ => none

/-- The type term that a text spells. -/
def TypeTerm.parse? (text : String) : Option TypeTerm :=
  (Form.parse? text).bind TypeTerm.ofForm?

/-- The declaration that a text spells. -/
def Declaration.parse? (text : String) : Option Declaration :=
  (Form.parse? text).bind Declaration.ofForm?

/-- The list of declarations that a text spells. -/
def Declaration.parseList? (text : String) : Option (List Declaration) :=
  (Form.parse? text).bind (Form.list? Declaration.ofForm?)

/-- The module that a text spells. -/
def Module.parse? (text : String) : Option Module :=
  (Form.parse? text).bind Module.ofForm?

end ElmWire.Source
