/-!
# Why a module is not a schema

A type term can fail in three ways; `TypeTermError.inDeclaration` says what that means for the
declaration it stands in.  A declaration can also fail because of the others around it.  A module
fails as a whole for what it is, or for its declarations, all of which are then reported.
-/

set_option autoImplicit false
namespace ElmWire.Extraction

/-- Why a declaration cannot be part of a schema. -/
inductive DeclarationError where
  /-- It declares something other than a type. -/
  | notAType (name : String)
  /-- It needs type variables, functions or extensible records. -/
  | parametric (name : String)
  /-- It applies a type that takes no arguments. -/
  | applied (declaration reference : String)
  | tupleArity (declaration : String) (arity : Nat)
  | reserved (name : String)
  | duplicate (name : String)
  | undefined (declaration reference : String)
  deriving Repr, DecidableEq

/-- The text of the error of a declaration. -/
def DeclarationError.message : DeclarationError → String
  | .notAType name =>
    s!"\"{name}\" is not a type declaration; " ++
      "a schema may only contain type aliases and custom types"
  | .parametric name =>
    s!"\"{name}\" uses type variables, functions or extensible records, which cannot cross a port"
  | .applied declaration reference =>
    s!"\"{declaration}\" applies \"{reference}\" to type arguments; " ++
      "only List, Maybe and Result take arguments"
  | .tupleArity declaration arity =>
    s!"\"{declaration}\" uses a tuple of {arity} items; only pairs and triples are supported"
  | .reserved name => s!"The type name \"{name}\" is reserved by the generated code"
  | .duplicate name => s!"The type \"{name}\" is declared more than once"
  | .undefined declaration reference =>
    s!"\"{declaration}\" refers to \"{reference}\", which is not declared in the schema"

/-- Why a type term is not a type that can be sent. -/
inductive TypeTermError where
  | parametric
  | applied (reference : String)
  | tupleArity (arity : Nat)
  deriving Repr, DecidableEq

/-- The error of a declaration in which a type term failed. -/
def TypeTermError.inDeclaration (declaration : String) : TypeTermError → DeclarationError
  | .parametric => .parametric declaration
  | .applied reference => .applied declaration reference
  | .tupleArity arity => .tupleArity declaration arity

/-- Why a module is not a schema. -/
inductive ModuleError where
  | portModule
  | effectModule
  | hidesNames
  | hasImports
  | badDeclarations (errors : List DeclarationError)
  | noOutboundMessage
  | noInboundMessage
  deriving Repr, DecidableEq

/-- The text of the error of a module. -/
def ModuleError.message : ModuleError → String
  | .portModule => "The schema must be a plain module, not a port module"
  | .effectModule => "The schema must be a plain module, not an effect module"
  | .hidesNames => "The schema module must expose everything with `exposing (..)`"
  | .hasImports => "The schema module must not import anything"
  | .badDeclarations errors =>
    "The schema contains declarations that cannot be used:\n" ++
      String.intercalate "\n" (errors.map fun error => "  - " ++ error.message)
  | .noOutboundMessage => "The schema must declare an `OutboundMessage` type"
  | .noInboundMessage => "The schema must declare an `InboundMessage` type"

end ElmWire.Extraction
