/-!
# The toolkit that generated Elm code calls

Every generated Elm module defines the same small set of functions, which know how tagged values,
tuples and records travel; the generated encoders and decoders are put together from them.  These
are their names.
-/

set_option autoImplicit false
namespace ElmWire.Elm.Toolkit

def encodeUnit : String := "encodeUnit"
def decodeUnit : String := "decodeUnit"
def encodeChar : String := "encodeChar"
def decodeChar : String := "decodeChar"
def encodeTuple2 : String := "encodeTuple2"
def decodeTuple2 : String := "decodeTuple2"
def encodeTuple3 : String := "encodeTuple3"
def decodeTuple3 : String := "decodeTuple3"
def encodeMaybe : String := "encodeMaybe"
def decodeMaybe : String := "decodeMaybe"
def encodeResult : String := "encodeResult"
def decodeResult : String := "decodeResult"
def encodeRecord : String := "encodeRecord"
def decodeRecordField : String := "decodeRecordField"
def encodeVariant : String := "encodeVariant"
def decodeVariant : String := "decodeVariant"
def decodeVariantArg : String := "decodeVariantArg"
def decodeCustomType : String := "decodeCustomType"
def decodeAndMap : String := "decodeAndMap"

/-- The names of all functions of the toolkit. -/
def all : List String :=
  [encodeUnit, decodeUnit, encodeChar, decodeChar, encodeTuple2, decodeTuple2, encodeTuple3,
    decodeTuple3, encodeMaybe, decodeMaybe, encodeResult, decodeResult, encodeRecord,
    decodeRecordField, encodeVariant, decodeVariant, decodeVariantArg, decodeCustomType,
    decodeAndMap]

end ElmWire.Elm.Toolkit
