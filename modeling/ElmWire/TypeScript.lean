import ElmWire.Json.Printer
import ElmWire.Schema.Basic
import ElmWire.Text.Indent
import ElmWire.Wire.Names

/-!
# TypeScript declarations

For every definition of a schema the TypeScript side gets an exported type that describes the JSON
in which its values travel.  A tagged value is an object type whose tag is a literal, and a custom
type is the union of these.  `Maybe` and `Result` are two generic types, declared by `genericTypes`.
-/

set_option autoImplicit false
namespace ElmWire
namespace TypeScript

/-- The columns that members are indented by. -/
def indentation : Nat := 4

/-- The object type of a constructor, from the types of its arguments. -/
def variantType (name : String) (arguments : List String) : String :=
  let tag := Wire.variantTag ++ ": " ++ Json.quote name
  let members := arguments.mapIdx fun i type => Wire.argKey i ++ ": " ++ type
  "\x7b " ++ String.intercalate "; " (tag :: members) ++ " \x7d"

/-- The object type of a record, from the lines for its fields. -/
def recordType (members : List String) : String :=
  match members with
  | [] => "\x7b\x7d"
  | members => "\x7b\n" ++ String.intercalate "\n" members ++ "\n\x7d"

/-- The line for a field of a record. -/
def fieldLine (name type : String) : String :=
  Text.spaces indentation ++ name ++ ": " ++ Text.indent indentation type ++ ";"

end TypeScript

mutual

/-- A type in TypeScript. -/
def Ty.toTypeScript : Ty → String
  | .unit => TypeScript.variantType Wire.unitTag []
  | .bool => "boolean"
  | .int | .float => "number"
  | .char | .string => "string"
  | .list item => "Array<" ++ item.toTypeScript ++ ">"
  | .pair first second => "[" ++ first.toTypeScript ++ ", " ++ second.toTypeScript ++ "]"
  | .triple first second third =>
    "[" ++ first.toTypeScript ++ ", " ++ second.toTypeScript ++ ", " ++ third.toTypeScript ++ "]"
  | .record fields => TypeScript.recordType (TypeScript.fieldLines fields)
  | .named name => name
  | .maybe item => "Maybe<" ++ item.toTypeScript ++ ">"
  | .result error ok => "Result<" ++ error.toTypeScript ++ ", " ++ ok.toTypeScript ++ ">"

/-- The lines for the fields of a record. -/
def TypeScript.fieldLines : List (String × Ty) → List String
  | [] => []
  | (name, type) :: rest =>
    TypeScript.fieldLine name type.toTypeScript :: TypeScript.fieldLines rest

end

namespace TypeScript

/-- An exported union type; without members it is the type without values. -/
def unionType (name : String) (members : List String) : String :=
  match members with
  | [] => "export type " ++ name ++ " = never;"
  | members =>
    let lines := members.map fun member =>
      Text.spaces indentation ++ "| " ++ Text.indent indentation member
    "export type " ++ name ++ " =\n" ++ String.intercalate "\n" lines ++ ";"

/-- The two generic types that declarations may refer to. -/
def genericTypes : String :=
  unionType "Maybe<T>" [variantType Wire.just ["T"], variantType Wire.nothing []] ++ "\n\n" ++
    unionType "Result<E, T>" [variantType Wire.ok ["T"], variantType Wire.err ["E"]]

end TypeScript

/-- The exported type of a definition. -/
def TypeDef.toTypeScript : TypeDef → String
  | .alias name type => "export type " ++ name ++ " = " ++ type.toTypeScript ++ ";"
  | .custom name ctors =>
    TypeScript.unionType name (ctors.map fun ctor =>
      TypeScript.variantType ctor.name (ctor.arguments.map Ty.toTypeScript))

/-- The exported types of a schema. -/
def Schema.toTypeScript (schema : Schema) : String :=
  String.intercalate "\n\n" (schema.defs.map TypeDef.toTypeScript)

end ElmWire
