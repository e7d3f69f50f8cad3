import ElmWire.Extraction.Error
import ElmWire.Schema.Basic
import ElmWire.Source.Module

/-!
# Types and definitions from their type terms

`TypeTerm.toTy` finds the type that a type term stands for, and `Declaration.toDef` the
definition that a declaration stands for.  Both go from left to right and stop at the first part
that does not stand for anything.

A name without arguments is a built-in type if it is the name of one, and otherwise a reference;
whether it refers to anything is a question for later.
-/

set_option autoImplicit false
namespace ElmWire.Source

open Extraction

/-- The type that a name without arguments stands for. -/
def tyOfName (name : String) : Ty :=
  match name with
  | "Bool" => .bool
  | "Int" => .int
  | "Float" => .float
  | "Char" => .char
  | "String" => .string
  | name => .named name

mutual

/-- The type that a type term stands for. -/
def TypeTerm.toTy : TypeTerm → Except TypeTermError Ty
  | .unit => .ok .unit
  | .named name [] => .ok (tyOfName name)
  | .named name [item] =>
    if name = "List" then do return .list (← item.toTy)
    else if name = "Maybe" then do return .maybe (← item.toTy)
    else .error (.applied name)
  | .named name [error, ok] =>
    if name = "Result" then do return .result (← error.toTy) (← ok.toTy)
    else .error (.applied name)
  | .named name _ => .error (.applied name)
  | .tuple [first, second] => return .pair (← first.toTy) (← second.toTy)
  | .tuple [first, second, third] =>
    return .triple (← first.toTy) (← second.toTy) (← third.toTy)
  | .tuple items => .error (.tupleArity items.length)
  | .record fields => return .record (← fieldTys fields)
  | .var _ | .extension _ _ | .function _ _ => .error .parametric

/-- The types that the fields of a record stand for. -/
def fieldTys : List (String × TypeTerm) → Except TypeTermError (List (String × Ty))
  | [] => pure []
  | (name, written) :: rest => do
    let type ← written.toTy
    let types ← fieldTys rest
    pure ((name, type) :: types)

end

/-- The constructor that a source constructor stands for. -/
def Constructor.toCtor (c : Constructor) : Except TypeTermError Ctor :=
  (c.arguments.mapM TypeTerm.toTy).map fun types => ⟨c.name, types⟩

/-- The definition that a declaration stands for. -/
def Declaration.toDef : Declaration → Except DeclarationError TypeDef
  | .value name | .port name _ => .error (.notAType name)
  | .destructuring => .error (.notAType "<destructuring>")
  | .operator symbol _ => .error (.notAType s!"({symbol})")
  | .alias name parameters written =>
    if !parameters.isEmpty then .error (.parametric name)
    else match written.toTy with
      | .ok type => .ok (.alias name type)
      | .error error => .error (error.inDeclaration name)
  | .custom name parameters constructors =>
    if !parameters.isEmpty then .error (.parametric name)
    else match constructors.mapM Constructor.toCtor with
      | .ok ctors => .ok (.custom name ctors)
      | .error error => .error (error.inDeclaration name)

/-- The name of a declared type. -/
def Declaration.typeName? : Declaration → Option String
  | .alias name _ _ | .custom name _ _ => some name
  | _ => none

end ElmWire.Source
