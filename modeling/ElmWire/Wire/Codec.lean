import ElmWire.Value
import ElmWire.Wire.Shape

/-!
# Encoding and decoding messages

`Wire.encode` turns a value of a type into the JSON that travels, and `Wire.decode` turns such JSON
back into a value.  They are the reference for the codecs that are generated for either side.

* A tagged value is an *envelope*: a flat object with the name of the constructor and one member
  per argument.  Unit is a tagged value with a single constructor.
* A record is an object with a member per field, a tuple an array with an item per component, and
  a list an array.
* Integers travel as floating-point numbers on one side, so only those that such a number holds
  exactly are let through.

Encoding goes down the value and decoding goes down the JSON; the type comes along, and is brought
to its `Shape` at every step, so that recursive definitions need no further care.  Where an object
is read by the names of its members, each member is first turned into a function of the type that
it is to be read at, and the one that the name selects is then applied.

What a message has beyond its type is passed over: fields that a record type does not declare,
members of an envelope beyond its arguments, items of an array beyond those of the tuple.
-/

set_option autoImplicit false
namespace ElmWire.Wire

/-! ## Pieces of the format -/

/-- The object for a constructor and its encoded arguments. -/
def envelope (name : String) (arguments : List Json) : Json :=
  .object (Members.ofList
    ((variantTag, .string name) :: arguments.mapIdx fun i argument => (argKey i, argument)))

/-- The largest integer up to which a floating-point number holds all integers exactly,
`2 ^ 53 - 1`. -/
def maxSafeInt : Int := 9007199254740991

/-- Can the integer be sent? -/
def isSafeInt (n : Int) : Bool := -maxSafeInt ≤ n && n ≤ maxSafeInt

/-- The constructor with a name. -/
def ctor? (ctors : List Ctor) (name : String) : Except Error Ctor :=
  match ctors.find? (fun ctor => ctor.name = name) with
  | some ctor => .ok ctor
  | none => .error (.unknownVariant name (ctors.map Ctor.name))

/-- Applies to each field, in order, the action that `actions` has under its name. -/
def eachField {α : Type} (actions : List (String × (Ty → Except Error α)))
    (fields : List (String × Ty)) : Except Error (List (String × α)) :=
  fields.mapM fun field =>
    match actions.lookup field.1 with
    | none => .error (.missingField field.1)
    | some action => (action field.2).map fun a => (field.1, a)

/-! ## Encoding -/

mutual

/-- The JSON for a value of a shape. -/
def encodeShape (schema : Schema) : Shape → Value → Except Error Json
  | .unit, .unit => pure (envelope unitTag [])
  | .bool, .bool b => pure (.bool b)
  | .int, .int n => if isSafeInt n then pure (.number (.int n)) else throw (.badNumber (.int n))
  | .float, .float x =>
    if x.isFinite then pure (.number (.float x)) else throw (.badNumber (.float x))
  | .char, .char c => pure (.string c.toString)
  | .string, .string s => pure (.string s)
  | .list item, .list values => return .array (← encodeItems schema item values)
  | .tuple types, .tuple values =>
    if types.length ≠ values.length then throw (.wrongArity types.length values.length)
    else return .array (← encodeEach schema types values)
  | .record fields, .record values =>
    return .object (Members.ofList (← eachField (fieldEncoders schema values) fields))
  | .tagged _ ctors, .variant name values => do
    let ctor ← ctor? ctors name
    if ctor.arguments.length ≠ values.length then
      throw (.wrongArity ctor.arguments.length values.length)
    else return envelope name (← encodeEach schema ctor.arguments values)
  | shape, value => throw (.mismatch shape.label value.kind)

/-- The JSON for each of several values of one type. -/
def encodeItems (schema : Schema) (type : Ty) : List Value → Except Error (List Json)
  | [] => pure []
  | value :: rest => do
    let item ← encodeShape schema (← schema.shape type) value
    let items ← encodeItems schema type rest
    pure (item :: items)

/-- The JSON for each of several values, each of its own type. -/
def encodeEach (schema : Schema) : List Ty → List Value → Except Error (List Json)
  | type :: types, value :: rest => do
    let item ← encodeShape schema (← schema.shape type) value
    let items ← encodeEach schema types rest
    pure (item :: items)
  | _, _ => pure []

/-- For each field of a record value, how it is encoded at a given type. -/
def fieldEncoders (schema : Schema) :
    List (String × Value) → List (String × (Ty → Except Error Json))
  | [] => []
  | (name, value) :: rest =>
    (name, fun type => do encodeShape schema (← schema.shape type) value) ::
      fieldEncoders schema rest

end

/-- The JSON for a value of a type. -/
def encode (schema : Schema) (type : Ty) (value : Value) : Except Error Json := do
  encodeShape schema (← schema.shape type) value

/-- The JSON for a value of the type that `name` is defined as. -/
def encodeNamed (schema : Schema) (name : String) (value : Value) : Except Error Json :=
  encode schema (.named name) value

/-! ## Decoding -/

/-- The members of an object. -/
def members? : Json → Except Error (List (String × Json))
  | .object members => .ok members
  | json => .error (.mismatch "an object" json.kind)

/-- The constructor that an envelope names, among `ctors`. -/
def tag? (ctors : List Ctor) (members : List (String × Json)) : Except Error Ctor :=
  match members.lookup variantTag with
  | none => .error (.missingField variantTag)
  | some (.string name) => ctor? ctors name
  | some json => .error (.mismatch "a string" json.kind)

/-- The integer that a number stands for, if it is one that can be sent. -/
def safeInt? (n : Json.Number) : Except Error Int :=
  match n.toInt? with
  | some i => if isSafeInt i then .ok i else .error (.badNumber n)
  | none => .error (.badNumber n)

/-- The only character of a string. -/
def onlyChar? (s : String) : Except Error Char :=
  match s.toList with
  | [c] => .ok c
  | _ => .error (.notAChar s)

mutual

/-- The value that a JSON value stands for at a shape. -/
def decodeShape (schema : Schema) : Shape → Json → Except Error Value
  | .bool, .bool b => pure (.bool b)
  | .bool, json => throw (.mismatch "a boolean" json.kind)
  | .int, .number n => return .int (← safeInt? n)
  | .int, json => throw (.mismatch "an integer" json.kind)
  | .float, .number n => pure (.float n.toFloat)
  | .float, json => throw (.mismatch "a number" json.kind)
  | .char, .string s => return .char (← onlyChar? s)
  | .char, json => throw (.mismatch "a string" json.kind)
  | .string, .string s => pure (.string s)
  | .string, json => throw (.mismatch "a string" json.kind)
  | .list item, .array items => return .list (← decodeItems schema item items)
  | .list _, json => throw (.mismatch "an array" json.kind)
  | .tuple types, .array items =>
    if items.length < types.length then throw (.wrongArity types.length items.length)
    else return .tuple (← decodeEach schema types items)
  | .tuple _, json => throw (.mismatch "an array" json.kind)
  | .record fields, .object members =>
    return .record (Members.ofList (← eachField (memberDecoders schema members) fields))
  | .record _, json => throw (.mismatch "an object" json.kind)
  | .unit, json => do
    let _ ← tag? unitCtors (← members? json)
    pure .unit
  | .tagged _ ctors, .object members => do
    let ctor ← tag? ctors members
    let arguments := ctor.arguments.mapIdx fun i type => (argKey i, type)
    return .variant ctor.name ((← eachField (memberDecoders schema members) arguments).map (·.2))
  | .tagged _ _, json => throw (.mismatch "an object" json.kind)

/-- The values that several JSON values stand for at one type. -/
def decodeItems (schema : Schema) (type : Ty) : List Json → Except Error (List Value)
  | [] => pure []
  | json :: rest => do
    let value ← decodeShape schema (← schema.shape type) json
    let values ← decodeItems schema type rest
    pure (value :: values)

/-- The values that the first JSON values stand for, each at its own type. -/
def decodeEach (schema : Schema) : List Ty → List Json → Except Error (List Value)
  | type :: types, json :: rest => do
    let value ← decodeShape schema (← schema.shape type) json
    let values ← decodeEach schema types rest
    pure (value :: values)
  | _, _ => pure []

/-- For each member of an object, how it is decoded at a given type. -/
def memberDecoders (schema : Schema) :
    List (String × Json) → List (String × (Ty → Except Error Value))
  | [] => []
  | (name, json) :: rest =>
    (name, fun type => do decodeShape schema (← schema.shape type) json) ::
      memberDecoders schema rest

end

/-- The value that a JSON value stands for at a type. -/
def decode (schema : Schema) (type : Ty) (json : Json) : Except Error Value := do
  decodeShape schema (← schema.shape type) json

/-- The value that a JSON value stands for at the type that `name` is defined as. -/
def decodeNamed (schema : Schema) (name : String) (json : Json) : Except Error Value :=
  decode schema (.named name) json

end ElmWire.Wire
