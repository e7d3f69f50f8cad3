import ElmWire.Json.Printer
import ElmWire.Schema.Basic

/-!
# Schemas as JSON

The form in which a schema is shown to other tools.  A type without parts is the string of its
name; every other type, and every definition, is an object whose only member is named for its kind.
-/

set_option autoImplicit false
namespace ElmWire

/-- An object with a single member. -/
def Json.single (name : String) (value : Json) : Json := .object [(name, value)]

mutual

/-- A type as JSON. -/
def Ty.toJson : Ty → Json
  | .unit => .string "Unit"
  | .bool => .string "Bool"
  | .int => .string "Int"
  | .float => .string "Float"
  | .char => .string "Char"
  | .string => .string "String"
  | .list item => .single "List" item.toJson
  | .pair first second => .single "Tuple" (.array [first.toJson, second.toJson])
  | .triple first second third =>
    .single "Tuple3" (.array [first.toJson, second.toJson, third.toJson])
  | .record fields => .single "Record" (.array (fieldsToJson fields))
  | .named name => .single "TypeRef" (.string name)
  | .maybe item => .single "Maybe" item.toJson
  | .result error ok => .single "Result" (.array [error.toJson, ok.toJson])

/-- The fields of a record type as JSON. -/
def fieldsToJson : List (String × Ty) → List Json
  | [] => []
  | (name, type) :: rest =>
    .object [("name", .string name), ("type", type.toJson)] :: fieldsToJson rest

end

/-- A constructor as JSON. -/
def Ctor.toJson (ctor : Ctor) : Json :=
  .object [("name", .string ctor.name), ("arguments", .array (ctor.arguments.map Ty.toJson))]

/-- A definition as JSON. -/
def TypeDef.toJson : TypeDef → Json
  | .alias name type =>
    .single "TypeAlias" (.object [("name", .string name), ("definition", type.toJson)])
  | .custom name ctors =>
    .single "CustomType"
      (.object [("name", .string name), ("variants", .array (ctors.map Ctor.toJson))])

/-- A schema as JSON. -/
def Schema.toJson (schema : Schema) : Json :=
  .object [("declarations", .array (schema.defs.map TypeDef.toJson))]

end ElmWire
