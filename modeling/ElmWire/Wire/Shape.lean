import ElmWire.Schema.Basic
import ElmWire.Wire.Error
import ElmWire.Wire.Names

/-!
# What types come down to on the wire

Seen from the wire there are fewer kinds of types than a schema has.  `Maybe`, `Result` and custom
types are all *tagged*: a choice between constructors with arguments.  Pairs and triples are both
tuples.  And a reference is whatever the definition it refers to comes down to.

`Schema.shape` finds the `Shape` of a type.  A reference to an alias leads to another type, which
may be a reference again; a chain of aliases that does not run in a circle passes each definition
at most once, so that it may be given up after as many hops as there are definitions.
-/

set_option autoImplicit false
namespace ElmWire

/-- What a type comes down to on the wire. -/
inductive Wire.Shape where
  | unit
  | bool
  | int
  | float
  | char
  | string
  | list (item : Ty)
  | tuple (items : List Ty)
  | record (fields : List (String × Ty))
  | tagged (label : String) (ctors : List Ctor)

namespace Wire

/-- The constructors of `Maybe item`. -/
def maybeCtors (item : Ty) : List Ctor := [⟨just, [item]⟩, ⟨nothing, []⟩]

/-- The constructors of `Result error ok`. -/
def resultCtors (error ok : Ty) : List Ctor := [⟨Wire.ok, [ok]⟩, ⟨err, [error]⟩]

/-- The constructors of the unit type. -/
def unitCtors : List Ctor := [⟨unitTag, []⟩]

/-- How the values of a shape are called in messages. -/
def Shape.label : Shape → String
  | .unit => "unit"
  | .bool => "bool"
  | .int => "int"
  | .float => "float"
  | .char => "char"
  | .string => "string"
  | .list _ => "list"
  | .tuple _ => "tuple"
  | .record _ => "record"
  | .tagged label _ => label

/-- A type at first sight: its shape, or the name that it refers to. -/
inductive View where
  | shape (shape : Shape)
  | name (name : String)

end Wire

open Wire in
/-- A type at first sight, without following references. -/
def Ty.view : Ty → View
  | .unit => .shape .unit
  | .bool => .shape .bool
  | .int => .shape .int
  | .float => .shape .float
  | .char => .shape .char
  | .string => .shape .string
  | .list item => .shape (.list item)
  | .pair first second => .shape (.tuple [first, second])
  | .triple first second third => .shape (.tuple [first, second, third])
  | .record fields => .shape (.record fields)
  | .named name => .name name
  | .maybe item => .shape (.tagged "Maybe" (maybeCtors item))
  | .result error ok => .shape (.tagged "Result" (resultCtors error ok))

namespace Schema

/-- The shape of a type, found by following at most `hops` aliases. -/
def shapeWithin (schema : Schema) (hops : Nat) (type : Ty) : Except Wire.Error Wire.Shape :=
  match type.view with
  | .shape shape => .ok shape
  | .name name =>
    match schema.get? name with
    | none => .error (.undefinedType name)
    | some (.custom _ ctors) => .ok (.tagged name ctors)
    | some (.alias _ definition) =>
      match hops with
      | 0 => .error (.circularAlias name)
      | hops + 1 => shapeWithin schema hops definition

/-- The shape of a type.  Aliases that run in a circle are reported of the name that the type is,
and not of the alias at which the search happened to be given up. -/
def shape (schema : Schema) (type : Ty) : Except Wire.Error Wire.Shape :=
  match schema.shapeWithin schema.defs.length type, type with
  | .error (.circularAlias _), .named name => .error (.circularAlias name)
  | found, _ => found

end Schema
end ElmWire
