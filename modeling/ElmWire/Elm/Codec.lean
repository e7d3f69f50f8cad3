import ElmWire.Elm.Toolkit
import ElmWire.Elm.Printer
import ElmWire.Schema.Basic

/-!
# Generated Elm codecs

For every definition of a schema the Elm side gets the type again, an encoder and a decoder.

* `Ty.toElm`, `TypeDef.toElm` — the types.
* `encoder type` — an expression for a function from values of the type to JSON.
* `decoder type` — an expression for a decoder of values of the type.
* `codecs` — the encoder and the decoder of a definition, as declarations.

Records are encoded field by field where the record is at hand (`encodeOf`), so that a function is
only needed for a record inside a list, a tuple or another type with helpers of its own.  A decoder
mentions the decoders of other definitions only behind a function, since definitions may refer to
each other in a circle.

Elm does not allow a variable to hide another, so all variables of a definition get different
names; `Names` counts those that are in use.
-/

set_option autoImplicit false
namespace ElmWire

/-! ## Types -/

mutual

/-- A type in Elm. -/
def Ty.toElm : Ty → Elm.TypeExpr
  | .unit => .unit
  | .bool => .named "Bool" []
  | .int => .named "Int" []
  | .float => .named "Float" []
  | .char => .named "Char" []
  | .string => .named "String" []
  | .list item => .named "List" [item.toElm]
  | .pair first second => .tuple [first.toElm, second.toElm]
  | .triple first second third => .tuple [first.toElm, second.toElm, third.toElm]
  | .record fields => .record (Elm.fieldTypes fields)
  | .named name => .named name []
  | .maybe item => .named "Maybe" [item.toElm]
  | .result error ok => .named "Result" [error.toElm, ok.toElm]

/-- The fields of a record type in Elm. -/
def Elm.fieldTypes : List (String × Ty) → List (String × Elm.TypeExpr)
  | [] => []
  | (name, type) :: rest => (name, type.toElm) :: Elm.fieldTypes rest

end

/-- A definition in Elm. -/
def TypeDef.toElm : TypeDef → Elm.Decl
  | .alias name type => .alias name type.toElm
  | .custom name ctors =>
    .custom name (ctors.map fun ctor => (ctor.name, ctor.arguments.map Ty.toElm))

namespace Elm

/-! ## Variables -/

/-- How many variables of each sort a definition has used: for values, for arguments of
constructors, and for fields of records. -/
structure Names where
  values : Nat
  arguments : Nat
  fields : Nat

/-- A definition that has not used any variables. -/
def Names.none : Names := ⟨0, 0, 0⟩

/-- A new variable for a value. -/
def freshValue : StateM Names String := fun names =>
  ("value" ++ toString names.values, { names with values := names.values + 1 })

/-- A new variable for an argument. -/
def freshArgument : StateM Names String := fun names =>
  ("arg" ++ toString names.arguments, { names with arguments := names.arguments + 1 })

/-- A new variable for a field. -/
def freshField : StateM Names String := fun names =>
  ("field" ++ toString names.fields, { names with fields := names.fields + 1 })

/-! ## Encoders -/

/-- The encoder of a definition. -/
def encoderName (name : String) : String := "encode" ++ name

/-- The decoder of a definition. -/
def decoderName (name : String) : String := "decode" ++ name

mutual

/-- A function from values of the type to JSON. -/
def encoder : Ty → StateM Names Expr
  | .unit => pure (.var Toolkit.encodeUnit)
  | .bool => pure (.var "Json.Encode.bool")
  | .int => pure (.var "Json.Encode.int")
  | .float => pure (.var "Json.Encode.float")
  | .char => pure (.var Toolkit.encodeChar)
  | .string => pure (.var "Json.Encode.string")
  | .list item => return .call "Json.Encode.list" [← encoder item]
  | .pair first second => return .call Toolkit.encodeTuple2 [← encoder first, ← encoder second]
  | .triple first second third =>
    return .call Toolkit.encodeTuple3 [← encoder first, ← encoder second, ← encoder third]
  | .record fields => do
    let value ← freshValue
    let pairs ← encodeFields (.var value) fields
    return .lambda [.var value] (.call Toolkit.encodeRecord [.list pairs])
  | .named name => pure (.var (encoderName name))
  | .maybe item => return .call Toolkit.encodeMaybe [← encoder item]
  | .result error ok => return .call Toolkit.encodeResult [← encoder error, ← encoder ok]

/-- The JSON of the value that `subject` denotes. -/
def encodeOf (subject : Expr) : Ty → StateM Names Expr
  | .record fields => do
    let pairs ← encodeFields subject fields
    return .call Toolkit.encodeRecord [.list pairs]
  | type => return (← encoder type).apply [subject]

/-- The names of the fields of `subject` with their JSON. -/
def encodeFields (subject : Expr) : List (String × Ty) → StateM Names (List Expr)
  | [] => pure []
  | (name, type) :: rest => do
    let value ← encodeOf (.access subject name) type
    let pairs ← encodeFields subject rest
    return .tuple [.string name, value] :: pairs

end

/-- The branch of an encoder for one constructor. -/
def encodeCtor (ctor : Ctor) : StateM Names (Pattern × Expr) := do
  let arguments ← ctor.arguments.mapM fun _ => freshArgument
  let encoded ← (ctor.arguments.zip arguments).mapM fun (type, argument) =>
    encodeOf (.var argument) type
  return (.ctor ctor.name (arguments.map .var),
    .call Toolkit.encodeVariant [.string ctor.name, .list encoded])

/-- A function from values of a custom type to JSON. -/
def encodeCtors (ctors : List Ctor) : StateM Names Expr := do
  let value ← freshValue
  let branches ← ctors.mapM encodeCtor
  return .lambda [.var value] (.case (.var value) branches)

/-! ## Decoders -/

/-- What the fields of a record are handed to when they are decoded: the constructor of an alias,
or a function that builds the record. -/
def recordBuilder (alias? : Option String) (fields : List (String × Ty)) : StateM Names Expr :=
  match fields, alias? with
  | [], _ => pure (.record [])
  | _, some name => pure (.var name)
  | fields, none => do
    let params ← fields.mapM fun _ => freshField
    return .lambda (params.map .var)
      (.record ((fields.zip params).map fun (field, param) => (field.1, .var param)))

mutual

/-- A decoder of values of the type. -/
def decoder : Ty → StateM Names Expr
  | .unit => pure (.var Toolkit.decodeUnit)
  | .bool => pure (.var "Json.Decode.bool")
  | .int => pure (.var "Json.Decode.int")
  | .float => pure (.var "Json.Decode.float")
  | .char => pure (.var Toolkit.decodeChar)
  | .string => pure (.var "Json.Decode.string")
  | .list item => return .call "Json.Decode.list" [← decoder item]
  | .pair first second => return .call Toolkit.decodeTuple2 [← decoder first, ← decoder second]
  | .triple first second third =>
    return .call Toolkit.decodeTuple3 [← decoder first, ← decoder second, ← decoder third]
  | .record fields => do
    let builder ← recordBuilder none fields
    return (Expr.call "Json.Decode.succeed" [builder]).through (← fieldDecoders fields)
  | .named name =>
    pure (.call "Json.Decode.lazy" [.lambda [.wildcard] (.var (decoderName name))])
  | .maybe item => return .call Toolkit.decodeMaybe [← decoder item]
  | .result error ok => return .call Toolkit.decodeResult [← decoder error, ← decoder ok]

/-- For each field of a record, the step that decodes it and hands it on. -/
def fieldDecoders : List (String × Ty) → StateM Names (List Expr)
  | [] => pure []
  | (name, type) :: rest => do
    let stage := .call Toolkit.decodeRecordField [.string name, ← decoder type]
    let stages ← fieldDecoders rest
    return stage :: stages

end

/-- A decoder of the type that the alias `name` is for.  A record alias comes with a constructor. -/
def decodeAlias (name : String) : Ty → StateM Names Expr
  | .record fields => do
    let builder ← recordBuilder (some name) fields
    return (Expr.call "Json.Decode.succeed" [builder]).through (← fieldDecoders fields)
  | type => decoder type

/-- The decoders of the arguments of a constructor, from position `i` on. -/
def argumentDecoders (i : Nat) : List Ty → StateM Names (List Expr)
  | [] => pure []
  | type :: rest => do
    let argument := .call Toolkit.decodeVariantArg [.int i, ← decoder type]
    let arguments ← argumentDecoders (i + 1) rest
    return argument :: arguments

/-- The largest number of decoders that there is a function to combine in one step. -/
def maxMapArity : Nat := 8

/-- The decoder of a constructor, from the decoders of its arguments. -/
def combine (name : String) (arguments : List Expr) : Expr :=
  let ctor := Expr.var name
  match arguments.length with
  | 0 => .call "Json.Decode.succeed" [ctor]
  | 1 => (Expr.call "Json.Decode.map" [ctor]).apply arguments
  | n =>
    if n ≤ maxMapArity then (Expr.call ("Json.Decode.map" ++ toString n) [ctor]).apply arguments
    else
      (Expr.call "Json.Decode.succeed" [ctor]).through
        (arguments.map fun argument => .call Toolkit.decodeAndMap [argument])

/-- The name of a constructor with its decoder. -/
def decodeCtor (ctor : Ctor) : StateM Names Expr := do
  let arguments ← argumentDecoders 0 ctor.arguments
  return .call Toolkit.decodeVariant [.string ctor.name, combine ctor.name arguments]

/-- A decoder of values of a custom type. -/
def decodeCtors (ctors : List Ctor) : StateM Names Expr :=
  return .call Toolkit.decodeCustomType [.list (← ctors.mapM decodeCtor)]

/-! ## Definitions -/

/-- The body of the encoder of a definition. -/
def encoderBody : TypeDef → Expr
  | .alias _ type => (encoder type Names.none).1
  | .custom _ ctors => (encodeCtors ctors Names.none).1

/-- The body of the decoder of a definition. -/
def decoderBody : TypeDef → Expr
  | .alias name type => (decodeAlias name type Names.none).1
  | .custom _ ctors => (decodeCtors ctors Names.none).1

/-- The encoder and the decoder of a definition. -/
def codecs (d : TypeDef) : List Decl :=
  [.value (encoderName d.name)
      (.function (.named d.name []) (.named "Json.Encode.Value" [])) (encoderBody d),
    .value (decoderName d.name)
      (.named "Json.Decode.Decoder" [.named d.name []]) (decoderBody d)]

/-- The text of the Elm types of a schema. -/
def renderTypes (width : Nat) (schema : Schema) : String :=
  renderDecls width (schema.defs.map TypeDef.toElm)

/-- The text of the Elm codecs of a schema, definition by definition. -/
def renderCodecs (width : Nat) (schema : Schema) : String :=
  renderDecls width (schema.defs.flatMap codecs)

end Elm
end ElmWire
