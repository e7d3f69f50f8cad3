import ElmWire.Extraction.Types

/-!
# Declarations against each other

What can be wrong with a declaration because of the others: its name is taken, or it refers to a
name that nothing declares.

Every type declaration of the module counts as declared, even one that could not be turned into a
definition, so that one bad declaration is not reported again wherever it is used.
-/

set_option autoImplicit false
namespace ElmWire.Extraction

open Source

/-- The type of the messages from Elm to its host. -/
def outboundMessage : String := "OutboundMessage"

/-- The type of the messages from the host to Elm. -/
def inboundMessage : String := "InboundMessage"

/-- Type names that the generated files use already, for a helper function (the first twelve) or
for a type that is built in. -/
def reservedNames : List String :=
  ["Unit", "Char", "Tuple2", "Tuple3", "Maybe", "Result", "Record", "RecordField", "Variant",
    "VariantArg", "CustomType", "AndMap",
    "Bool", "Int", "Float", "String", "List", "Array"]

/-- The names of all declared types, in order. -/
def declaredNames (source : List Declaration) : List String :=
  source.filterMap Declaration.typeName?

/-- What is wrong with the names themselves, in order: a name that occurs `earlier` is a duplicate,
and the first occurrence of a reserved name is reserved. -/
def nameErrors (earlier : List String) : List String → List DeclarationError
  | [] => []
  | name :: rest =>
    let found :=
      if earlier.contains name then [DeclarationError.duplicate name]
      else if reservedNames.contains name then [.reserved name]
      else []
    found ++ nameErrors (name :: earlier) rest

/-- The names without those that are declared or that occurred before, in `seen`. -/
def undeclared (declared : List String) (seen : List String) : List String → List String
  | [] => []
  | name :: rest =>
    if declared.contains name || seen.contains name then undeclared declared seen rest
    else name :: undeclared declared (name :: seen) rest

/-- The references of a definition to names that are not declared, each once. -/
def referenceErrors (declared : List String) (d : TypeDef) : List DeclarationError :=
  (undeclared declared [] d.references).map (.undefined d.name)

/-- What is wrong with the declarations of a module as a whole, where `defs` are the definitions
that they stand for. -/
def check (source : List Declaration) (defs : List TypeDef) : List DeclarationError :=
  let declared := declaredNames source
  nameErrors [] declared ++ defs.flatMap (referenceErrors declared)

end ElmWire.Extraction
