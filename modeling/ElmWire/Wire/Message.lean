import ElmWire.Json.Printer
import ElmWire.Wire.Codec

/-!
# Messages as text

What is sent is text: the JSON for a value, written without blanks.
-/

set_option autoImplicit false
namespace ElmWire.Wire

/-- The text of the message for a value of the type that `name` is defined as. -/
def encodeMessage (schema : Schema) (name : String) (value : Value) : Except Error String :=
  (encodeNamed schema name value).map Json.compact

end ElmWire.Wire
