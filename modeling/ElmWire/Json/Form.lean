import ElmWire.Json.Basic
import ElmWire.Json.Token

/-!
# JSON as it is written

A `Form` is a JSON text with its structure found but its contents not yet judged.  Members stand in
the order in which they were written and names may repeat; numbers and strings are literals that
may turn out to have no value.  Judging is left to whoever reads the form, because parts of a text
that nobody reads are not judged at all.

* `Form.parse?` — the form of a text that follows the JSON grammar.
* `Form.evaluate?` — the JSON value of a form.  Of members with one name the last one counts.
* `Json.parse?` — the value of a text.

Containers that are nested more than `nestingLimit` deep are recognised but not kept: such a
container is the form `tooDeep`, which has no value.

The tokens are read by a machine with a stack of the containers that are still open, so that the
depth of a text costs nothing but stack entries.
-/

set_option autoImplicit false
namespace ElmWire.Json

/-- How deep arrays and objects may be nested. -/
def nestingLimit : Nat := 127

/-- A JSON text, taken apart but not yet given a value. -/
inductive Form where
  | null
  | bool (b : Bool)
  | number (literal : Decimal.Literal)
  | string (text : Option String)
  | array (items : List Form)
  | object (members : List (Option String × Form))
  | tooDeep
  deriving Inhabited

/-! ## From tokens to a form -/

/-- A container that is still open, with what is in it so far, last entry first.  An object also
remembers the name of the member whose value comes next. -/
inductive Frame where
  | array (items : List Form)
  | object (members : List (Option String × Form)) (name : Option String)

/-- What has to come next. -/
inductive Expect where
  | value
  | valueOrClose
  | name
  | nameOrClose
  | colon
  | separator
  | nothing (form : Form)

/-- The state of the reading machine: the open containers, innermost first. -/
structure Reading where
  stack : List Frame
  expect : Expect

namespace Reading

/-- A value is complete: it goes into the innermost open container, or is the whole text. -/
def deliver (form : Form) : List Frame → Reading
  | [] => ⟨[], .nothing form⟩
  | .array items :: rest => ⟨.array (form :: items) :: rest, .separator⟩
  | .object members name :: rest => ⟨.object ((name, form) :: members) name :: rest, .separator⟩

/-- A container is complete.  `depth` is its own nesting depth. -/
def closed (depth : Nat) (form : Form) : Form :=
  if depth ≤ nestingLimit then form else .tooDeep

/-- Reads a token where a value may start. -/
def value? (stack : List Frame) : Token → Option Reading
  | .null => some (deliver .null stack)
  | .bool b => some (deliver (.bool b) stack)
  | .number l => some (deliver (.number l) stack)
  | .string s => some (deliver (.string s) stack)
  | .openBracket => some ⟨.array [] :: stack, .valueOrClose⟩
  | .openBrace => some ⟨.object [] none :: stack, .nameOrClose⟩
  | _ => none

/-- Reads a token where a member may start. -/
def name? (stack : List Frame) : Token → Option Reading
  | .string s =>
    match stack with
    | .object members _ :: rest => some ⟨.object members s :: rest, .colon⟩
    | _ => none
  | _ => none

/-- Closes the innermost container, if the token is its closing bracket. -/
def close? (stack : List Frame) : Token → Option Reading
  | .closeBracket =>
    match stack with
    | .array items :: rest => some (deliver (closed stack.length (.array items.reverse)) rest)
    | _ => none
  | .closeBrace =>
    match stack with
    | .object members _ :: rest =>
      some (deliver (closed stack.length (.object members.reverse)) rest)
    | _ => none
  | _ => none

/-- Reads the token between two entries of a container. -/
def separator? (stack : List Frame) : Token → Option Reading
  | .comma =>
    match stack with
    | .array _ :: _ => some ⟨stack, .value⟩
    | .object _ _ :: _ => some ⟨stack, .name⟩
    | [] => none
  | token => close? stack token

/-- Reads one token. -/
def step? (r : Reading) (token : Token) : Option Reading :=
  match r.expect with
  | .value => value? r.stack token
  | .valueOrClose => (value? r.stack token).or (close? r.stack token)
  | .name => name? r.stack token
  | .nameOrClose => (name? r.stack token).or (close? r.stack token)
  | .colon => match token with
    | .colon => some ⟨r.stack, .value⟩
    | _ => none
  | .separator => separator? r.stack token
  | .nothing _ => none

/-- Reads all tokens. -/
def run? : Reading → List Token → Option Reading
  | r, [] => some r
  | r, token :: rest =>
    match r.step? token with
    | none => none
    | some next => run? next rest

end Reading

/-- The form of a whole text. -/
def Form.parse? (text : String) : Option Form := do
  let tokens ← Token.scan? text.toList
  match ← Reading.run? ⟨[], .value⟩ tokens with
  | ⟨_, .nothing form⟩ => some form
  | _ => none

/-! ## The value of a form -/

mutual

/-- The value of a form; `none` if some number, string or container in it has none. -/
def Form.evaluate? : Form → Option Json
  | .null => some .null
  | .bool b => some (.bool b)
  | .number l => (Number.ofLiteral? l).map .number
  | .string s => s.map .string
  | .array items => (evaluateItems? items).map .array
  | .object members => (evaluateMembers? members).map fun ms => .object (Members.ofList ms)
  | .tooDeep => none

/-- The values of the items of an array. -/
def evaluateItems? : List Form → Option (List Json)
  | [] => some []
  | form :: rest => do
    let item ← form.evaluate?
    let items ← evaluateItems? rest
    pure (item :: items)

/-- The members of an object as they are written, with their values. -/
def evaluateMembers? : List (Option String × Form) → Option (List (String × Json))
  | [] => some []
  | (name, form) :: rest => do
    let name ← name
    let value ← form.evaluate?
    let members ← evaluateMembers? rest
    pure ((name, value) :: members)

end

/-- The value of a JSON text. -/
def parse? (text : String) : Option Json :=
  (Form.parse? text).bind Form.evaluate?

/-! ## Depth -/

mutual

/-- How deep the containers of a form are nested.  A container that was not kept is too deep. -/
def Form.depth : Form → Nat
  | .array items => depthItems items + 1
  | .object members => depthMembers members + 1
  | .tooDeep => nestingLimit + 1
  | _ => 0

/-- The greatest depth among the items of an array. -/
def depthItems : List Form → Nat
  | [] => 0
  | form :: rest => max form.depth (depthItems rest)

/-- The greatest depth among the members of an object. -/
def depthMembers : List (Option String × Form) → Nat
  | [] => 0
  | (_, form) :: rest => max form.depth (depthMembers rest)

end

end ElmWire.Json
