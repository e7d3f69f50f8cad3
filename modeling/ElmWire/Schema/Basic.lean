/-!
# Schemas

A schema describes the messages that cross the boundary: a list of named type definitions, in the
order in which they were declared.

* `Ty` — the types that can cross it, a closed set.
* `Ctor`, `TypeDef` — a constructor of a custom type, and a definition: an alias or a custom type.
* `Schema` — the definitions.

Types refer to definitions by name (`Ty.named`), so that recursive and mutually recursive
definitions are finite trees like all others.  `Ty.references` and `TypeDef.references` list the
names that are referred to, and `Schema.get?` resolves one.
-/

set_option autoImplicit false
namespace ElmWire

/-- A type whose values can be sent as messages. -/
inductive Ty where
  | unit
  | bool
  | int
  | float
  | char
  | string
  | list (item : Ty)
  | pair (first second : Ty)
  | triple (first second third : Ty)
  | record (fields : List (String × Ty))
  /-- The type that the definition `name` introduces. -/
  | named (name : String)
  | maybe (item : Ty)
  | result (error ok : Ty)
  deriving Inhabited

/-- A constructor of a custom type, with the types of its arguments. -/
structure Ctor where
  name : String
  arguments : List Ty
  deriving Inhabited

/-- A definition: a name for a type, or a new type with its constructors. -/
inductive TypeDef where
  | alias (name : String) (type : Ty)
  | custom (name : String) (ctors : List Ctor)
  deriving Inhabited

/-- Definitions, in the order in which they were declared. -/
structure Schema where
  defs : List TypeDef
  deriving Inhabited

/-! ## References -/

mutual

/-- The names that a type refers to, from left to right, each as often as it occurs. -/
def Ty.references : Ty → List String
  | .unit | .bool | .int | .float | .char | .string => []
  | .list item | .maybe item => item.references
  | .pair first second => first.references ++ second.references
  | .triple first second third => first.references ++ second.references ++ third.references
  | .record fields => fieldReferences fields
  | .named name => [name]
  | .result error ok => error.references ++ ok.references

/-- The names that the fields of a record refer to. -/
def fieldReferences : List (String × Ty) → List String
  | [] => []
  | (_, type) :: rest => type.references ++ fieldReferences rest

end

namespace TypeDef

/-- The name that is defined. -/
def name : TypeDef → String
  | .alias name _ => name
  | .custom name _ => name

/-- The names that the body of a definition refers to. -/
def references : TypeDef → List String
  | .alias _ type => type.references
  | .custom _ ctors => ctors.flatMap fun ctor => ctor.arguments.flatMap Ty.references

end TypeDef

namespace Schema

/-- The first definition of a name. -/
def get? (schema : Schema) (name : String) : Option TypeDef :=
  schema.defs.find? (fun d => d.name = name)

/-- Is the name defined? -/
def contains (schema : Schema) (name : String) : Bool :=
  (schema.get? name).isSome

theorem name_of_get? {schema : Schema} {name : String} {d : TypeDef}
    (h : schema.get? name = some d) : d.name = name := by
  simpa using List.find?_some h

theorem contains_iff {schema : Schema} {name : String} :
    schema.contains name = true ↔ ∃ d ∈ schema.defs, d.name = name := by
  simp [contains, get?]

end Schema
end ElmWire
