import ElmWire.Json.Basic
import ElmWire.Text.Quoted

/-!
# Why a message cannot be encoded or decoded
-/

set_option autoImplicit false
namespace ElmWire.Wire

/-- Why a value has no encoding at a type, or a JSON value no decoding. -/
inductive Error where
  | mismatch (expected found : String)
  | missingField (name : String)
  | wrongArity (expected found : Nat)
  | notAChar (text : String)
  | unknownVariant (found : String) (expected : List String)
  | badNumber (number : Json.Number)
  | undefinedType (name : String)
  /-- Following aliases from the name on runs in a circle. -/
  | circularAlias (name : String)

/-- The text of an error. -/
def Error.message : Error → String
  | .mismatch expected found => s!"Expected {expected} but found {found}"
  | .missingField name => s!"Missing field \"{name}\""
  | .wrongArity expected found => s!"Expected a tuple of {expected} items but found {found}"
  | .notAChar text => "Expected exactly one character but found " ++ Text.quoted text
  | .unknownVariant found expected =>
    s!"Unknown variant \"{found}\", expected one of: " ++ String.intercalate ", " expected
  | .badNumber number => "Number " ++ number.text ++ " does not fit the expected type"
  | .undefinedType name => s!"The type \"{name}\" is not declared in the schema"
  | .circularAlias name => s!"The aliases of the type \"{name}\" run in a circle"

end ElmWire.Wire
