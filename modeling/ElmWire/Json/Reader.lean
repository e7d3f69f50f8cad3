import ElmWire.Json.Form

/-!
# Reading data from forms

Data that is described by a fixed set of named fields can be written in two ways, as an object or
as an array.

* In an object the fields stand in any order.  A field may not be given twice, and members with
  other names are passed over without being looked at.
* In an array the fields stand in their declared order and may be left off at the end.

`Form.fields?` deals with both and hands out, field by field, what was given for it; whether a
field may be left out is decided by `required` and `optional`.

Data that comes in several *kinds* carries the kind under a tag, or as the first entry of its
array; `Form.tagged?` splits it off.  Tagged data is taken in as a whole before its kind is known,
so all of it must have a value, even what is then passed over.
-/

set_option autoImplicit false
namespace ElmWire.Json.Form

/-- A string. -/
def text? : Form → Option String
  | .string s => s
  | _ => none

/-- An integer that is not negative and fits into 64 bits. -/
def natural? : Form → Option Nat
  | .number l =>
    match Number.ofLiteral? l with
    | some (.int (.ofNat n)) => some n
    | _ => none
  | _ => none

/-- An array of things that `read` can read. -/
def list? {α : Type} (read : Form → Option α) : Form → Option (List α)
  | .array items => items.mapM read
  | _ => none

/-! ## Fields -/

/-- What the members give for the field `name`, if they give it at most once. -/
def fieldOf? (members : List (String × Form)) (name : String) : Option (Option Form) :=
  match members.filter (fun m => m.1 = name) with
  | [] => some none
  | [m] => some (some m.2)
  | _ => none

/-- What is given for each of the fields `names`. -/
def fields? (names : List String) : Form → Option (List (Option Form))
  | .array items =>
    if items.length ≤ names.length then
      some (items.map some ++ List.replicate (names.length - items.length) none)
    else none
  | .object members => do
    let members ← members.mapM fun m => m.1.map fun name => (name, m.2)
    names.mapM (fieldOf? members)
  | _ => none

/-- Are all members of an object among the fields `names`? -/
def hasOnly (names : List String) : Form → Bool
  | .object members => members.all fun m => m.1.any (names.contains ·)
  | _ => true

/-- A field that has to be given. -/
def required {α : Type} (read : Form → Option α) (given : Option Form) : Option α :=
  given.bind read

/-- A field that may be left out. -/
def optional {α : Type} (default : α) (read : Form → Option α) (given : Option Form) : Option α :=
  match given with
  | none => some default
  | some form => read form

/-! ## Kinds -/

/-- Splits tagged data into the form of its kind and the form of its fields. -/
def tagged? (tag : String) : Form → Option (Form × Form)
  | .array (kind :: fields) => some (kind, .array fields)
  | .object members =>
    match members.filter (fun m => m.1 = some tag) with
    | [m] => some (m.2, .object (members.filter fun m => m.1 ≠ some tag))
    | _ => none
  | _ => none

/-- One of the kinds `kinds`, by its name.  Inside other tagged data (`nested`) it may also be
given by its position in the list of kinds. -/
def kind? (kinds : List String) (nested : Bool) (form : Form) : Option String :=
  match form.text? with
  | some name => if kinds.contains name then some name else none
  | none => if nested then form.natural?.bind (kinds[·]?) else none

/-- The fields of a kind that has none: members are passed over, but array entries are too many. -/
def noFields? : Form → Option Unit
  | .object _ => some ()
  | .array [] => some ()
  | _ => none

end ElmWire.Json.Form
