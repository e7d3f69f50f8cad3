import ElmWire.Elm.Toolkit

/-!
# The generated files without their contents

Two templates, for the Elm module and for the TypeScript declarations.  What depends on the schema,
on the options or on the names of the wire format is a slot; everything else is the same in every
generated file.

The Elm module holds the two ports with functions to use them (`messaging`), and the functions that
the generated codecs call (`toolkit`).  It consists of blocks with two blank lines between them,
most of which are a `Definition`.  The TypeScript file declares the application with its two ports.
-/

set_option autoImplicit false
namespace ElmWire.Compile

open Elm

/-- A text from its lines, each of which ends in a line break. -/
def ofLines (lines : List String) : String :=
  String.join (lines.map fun line => line ++ "\n")

/-! ## The Elm module -/

/-- A value that the Elm module defines. -/
structure Definition where
  name : String
  type : String
  params : List String
  body : List String

/-- The lines of a definition: the annotation, the name with its parameters, and the body. -/
def Definition.lines (d : Definition) : List String :=
  (d.name ++ " : " ++ d.type) :: (String.intercalate " " (d.name :: d.params) ++ " =") :: d.body

/-- The ports and their types. -/
def ports : List (String × String) := [
  ("fromElm", "Json.Encode.Value -> Cmd msg"),
  ("toElm", "(Json.Decode.Value -> msg) -> Sub msg")]

/-- The functions to send and to receive messages with. -/
def messaging : List Definition := [
  ⟨"send",
    "OutboundMessage -> Cmd msg",
    ["message"], [
    "    fromElm (encodeOutboundMessage message)"]⟩,
  ⟨"subscribe",
    "(Result Json.Decode.Error InboundMessage -> msg) -> Sub msg",
    ["toMsg"], [
    "    toElm (\\value -> toMsg (Json.Decode.decodeValue decodeInboundMessage value))"]⟩]

/-- The functions that generated codecs call. -/
def toolkit : List Definition := [
  ⟨Toolkit.encodeUnit,
    "() -> Json.Encode.Value",
    ["()"], [
    "    encodeVariant \"\x7b\x7bunit_tag\x7d\x7d\" []"]⟩,
  ⟨Toolkit.decodeUnit,
    "Json.Decode.Decoder ()",
    [], [
    "    decodeCustomType [ decodeVariant \"\x7b\x7bunit_tag\x7d\x7d\"" ++ " " ++
      "(Json.Decode.succeed ()) ]"]⟩,
  ⟨Toolkit.encodeChar,
    "Char -> Json.Encode.Value",
    ["char"], [
    "    Json.Encode.string (String.fromChar char)"]⟩,
  ⟨Toolkit.decodeChar,
    "Json.Decode.Decoder Char",
    [], [
    "    Json.Decode.string",
    "        |> Json.Decode.andThen",
    "            (\\string ->",
    "                case String.uncons string of",
    "                    Just ( char, \"\" ) ->",
    "                        Json.Decode.succeed char",
    "",
    "                    _ ->",
    "                        Json.Decode.fail" ++ " " ++
      "(\"Expected exactly one character but found \" ++ string)",
    "            )"]⟩,
  ⟨Toolkit.encodeTuple2,
    "(a -> Json.Encode.Value) -> (b -> Json.Encode.Value) -> ( a, b ) -> Json.Encode.Value",
    ["encodeA", "encodeB", "( a, b )"], [
    "    Json.Encode.list identity [ encodeA a, encodeB b ]"]⟩,
  ⟨Toolkit.decodeTuple2,
    "Json.Decode.Decoder a -> Json.Decode.Decoder b -> Json.Decode.Decoder ( a, b )",
    ["decodeA", "decodeB"], [
    "    Json.Decode.map2 Tuple.pair",
    "        (Json.Decode.index 0 decodeA)",
    "        (Json.Decode.index 1 decodeB)"]⟩,
  ⟨Toolkit.encodeTuple3,
    "(a -> Json.Encode.Value) -> (b -> Json.Encode.Value) -> (c -> Json.Encode.Value) ->" ++ " " ++
      "( a, b, c ) -> Json.Encode.Value",
    ["encodeA", "encodeB", "encodeC", "( a, b, c )"], [
    "    Json.Encode.list identity [ encodeA a, encodeB b, encodeC c ]"]⟩,
  ⟨Toolkit.decodeTuple3,
    "Json.Decode.Decoder a -> Json.Decode.Decoder b -> Json.Decode.Decoder c ->" ++ " " ++
      "Json.Decode.Decoder ( a, b, c )",
    ["decodeA", "decodeB", "decodeC"], [
    "    Json.Decode.map3 (\\a b c -> ( a, b, c ))",
    "        (Json.Decode.index 0 decodeA)",
    "        (Json.Decode.index 1 decodeB)",
    "        (Json.Decode.index 2 decodeC)"]⟩,
  ⟨Toolkit.encodeMaybe,
    "(a -> Json.Encode.Value) -> Maybe a -> Json.Encode.Value",
    ["encodeA", "maybe"], [
    "    case maybe of",
    "        Just a ->",
    "            encodeVariant \"\x7b\x7bjust\x7d\x7d\" [ encodeA a ]",
    "",
    "        Nothing ->",
    "            encodeVariant \"\x7b\x7bnothing\x7d\x7d\" []"]⟩,
  ⟨Toolkit.decodeMaybe,
    "Json.Decode.Decoder a -> Json.Decode.Decoder (Maybe a)",
    ["decodeA"], [
    "    decodeCustomType",
    "        [ decodeVariant \"\x7b\x7bjust\x7d\x7d\"" ++ " " ++
      "(Json.Decode.map Just (decodeVariantArg 0 decodeA))",
    "        , decodeVariant \"\x7b\x7bnothing\x7d\x7d\" (Json.Decode.succeed Nothing)",
    "        ]"]⟩,
  ⟨Toolkit.encodeResult,
    "(e -> Json.Encode.Value) -> (a -> Json.Encode.Value) -> Result e a -> Json.Encode.Value",
    ["encodeE", "encodeA", "result"], [
    "    case result of",
    "        Ok a ->",
    "            encodeVariant \"\x7b\x7bok\x7d\x7d\" [ encodeA a ]",
    "",
    "        Err e ->",
    "            encodeVariant \"\x7b\x7berr\x7d\x7d\" [ encodeE e ]"]⟩,
  ⟨Toolkit.decodeResult,
    "Json.Decode.Decoder e -> Json.Decode.Decoder a -> Json.Decode.Decoder (Result e a)",
    ["decodeE", "decodeA"], [
    "    decodeCustomType",
    "        [ decodeVariant \"\x7b\x7bok\x7d\x7d\"" ++ " " ++
      "(Json.Decode.map Ok (decodeVariantArg 0 decodeA))",
    "        , decodeVariant \"\x7b\x7berr\x7d\x7d\"" ++ " " ++
      "(Json.Decode.map Err (decodeVariantArg 0 decodeE))",
    "        ]"]⟩,
  ⟨Toolkit.encodeRecord,
    "List ( String, Json.Encode.Value ) -> Json.Encode.Value",
    [], [
    "    Json.Encode.object"]⟩,
  ⟨Toolkit.decodeRecordField,
    "String -> Json.Decode.Decoder a -> Json.Decode.Decoder (a -> b) -> Json.Decode.Decoder b",
    ["name", "decodeA"], [
    "    Json.Decode.map2 (|>) (Json.Decode.field name decodeA)"]⟩,
  ⟨Toolkit.encodeVariant,
    "String -> List Json.Encode.Value -> Json.Encode.Value",
    ["name", "args"], [
    "    Json.Encode.object",
    "        (( \"\x7b\x7bvariant_tag\x7d\x7d\", Json.Encode.string name )",
    "            :: List.indexedMap (\\index arg -> ( variantArgKey index, arg )) args",
    "        )"]⟩,
  ⟨"variantArgKey",
    "Int -> String",
    ["index"], [
    "    \"\x7b\x7barg_prefix\x7d\x7d\" ++ String.fromInt index"]⟩,
  ⟨Toolkit.decodeVariant,
    "String -> Json.Decode.Decoder a -> ( String, Json.Decode.Decoder a )",
    ["name", "decoder"], [
    "    ( name, decoder )"]⟩,
  ⟨Toolkit.decodeVariantArg,
    "Int -> Json.Decode.Decoder a -> Json.Decode.Decoder a",
    ["index"], [
    "    Json.Decode.field (variantArgKey index)"]⟩,
  ⟨Toolkit.decodeCustomType,
    "List ( String, Json.Decode.Decoder a ) -> Json.Decode.Decoder a",
    ["variants"], [
    "    Json.Decode.field \"\x7b\x7bvariant_tag\x7d\x7d\" Json.Decode.string",
    "        |> Json.Decode.andThen",
    "            (\\name ->",
    "                case List.filter (\\( candidate, _ ) -> candidate == name) variants of",
    "                    ( _, decoder ) :: _ ->",
    "                        decoder",
    "",
    "                    [] ->",
    "                        Json.Decode.fail",
    "                            (\"Unknown variant \\\"\"",
    "                                ++ name",
    "                                ++ \"\\\", expected one of: \"",
    "                                ++ String.join \", \" (List.map Tuple.first variants)",
    "                            )",
    "            )"]⟩,
  ⟨Toolkit.decodeAndMap,
    "Json.Decode.Decoder a -> Json.Decode.Decoder (a -> b) -> Json.Decode.Decoder b",
    [], [
    "    Json.Decode.map2 (|>)"]⟩]

/-- The first lines of the Elm module. -/
def elmHeader : List String := [
  "port module \x7b\x7bmodule_name\x7d\x7d exposing (..)",
  "",
  "\x7b-| Generated by port-schema. Do not edit.",
  "",
  "`send` and `subscribe` carry `OutboundMessage` and `InboundMessage` values",
  "across the `fromElm` and `toElm` ports.",
  "",
  "-\x7d",
  "",
  "import Json.Decode",
  "import Json.Encode"]

/-- The blocks of the Elm module. -/
def elmBlocks : List (List String) :=
  [elmHeader] ++
  ports.map (fun port => ["port " ++ port.1 ++ " : " ++ port.2]) ++
  messaging.map Definition.lines ++
  [["", "-- TYPES"], ["\x7b\x7btype_declarations\x7d\x7d"],
    ["", "-- CODECS"], ["\x7b\x7bcodecs\x7d\x7d"],
    ["", "-- PRELUDE"]] ++
  toolkit.map Definition.lines

/-- The generated Elm module. -/
def elmSkeleton : String := ofLines (["", ""].intercalate elmBlocks)

/-! ## The TypeScript declarations -/

/-- The generated TypeScript declarations. -/
def typeScriptSkeleton : String :=
  ofLines [
    "// Generated by port-schema. Do not edit.",
    "",
    "\x7b\x7bprelude\x7d\x7d",
    "",
    "\x7b\x7btype_declarations\x7d\x7d",
    "",
    "export namespace Elm \x7b",
    "    namespace \x7b\x7bmain_module\x7d\x7d \x7b",
    "        export interface App \x7b",
    "            ports: \x7b",
    "                fromElm: \x7b",
    "                    subscribe(callback: (data: OutboundMessage) => void): void;",
    "                    unsubscribe(callback: (data: OutboundMessage) => void): void;",
    "                \x7d;",
    "                toElm: \x7b",
    "                    send(data: InboundMessage): void;",
    "                \x7d;",
    "            \x7d;",
    "        \x7d",
    "",
    "        export function init(options: \x7b",
    "            node?: HTMLElement | null;",
    "            flags?: unknown;",
    "        \x7d): App;",
    "    \x7d",
    "\x7d"]

end ElmWire.Compile
