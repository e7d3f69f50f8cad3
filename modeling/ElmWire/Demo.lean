import ElmWire.Compile.Output
import ElmWire.Json.Printer
import ElmWire.Wire.Codec

/-!
# A worked example

A small module, what it compiles to, and three messages that pass, or try to pass, between the
two sides of it.
-/

set_option autoImplicit false
namespace ElmWire.Demo

open Source (TypeTerm Constructor Declaration)

/-- A type without arguments. -/
def type (name : String) : TypeTerm := .named name []

/-- The module.

```elm
module Schema exposing (..)

type alias Point = { x : Int, y : Int }

type Shape = Circle Float | Square Float Float

type OutboundMessage = Drew Shape Point

type InboundMessage = Clear | Highlight (Maybe Point)
```
-/
def module : Source.Module where
  name := "Schema"
  kind := .normal
  exposing := .all
  imports := []
  declarations :=
    [.alias "Point" [] (.record [("x", type "Int"), ("y", type "Int")]),
      .custom "Shape" []
        [⟨"Circle", [type "Float"]⟩, ⟨"Square", [type "Float", type "Float"]⟩],
      .custom "OutboundMessage" [] [⟨"Drew", [type "Shape", type "Point"]⟩],
      .custom "InboundMessage" []
        [⟨"Clear", []⟩, ⟨"Highlight", [.named "Maybe" [type "Point"]]⟩]]

/-- A message that Elm sends. -/
def drew : Value :=
  .variant "Drew"
    [.variant "Square" [.float 2.0, .float 3.5], .ofFields [("x", .int 1), ("y", .int 2)]]

/-- A message that Elm receives. -/
def highlight : String :=
  "\x7b\"variant\": \"Highlight\", \"_0\": \x7b\"variant\": \"Just\", \"_0\": " ++
  "\x7b\"x\": 4, \"y\": 5\x7d\x7d\x7d"

/-- A message that Elm does not know. -/
def reset : Json := Wire.envelope "Reset" []

/-- A generated file under a heading with its size. -/
def shown (comment file text : String) : String :=
  comment ++ " " ++ file ++ " (" ++ toString text.utf8ByteSize ++ " bytes)\n\n" ++ text ++ "\n\n"

/-- The generated files and what becomes of the messages. -/
def transcript? : Option String := do
  let output ← (Compile.Output.ofModule .standard module).toOption
  let schema ← module.toSchema.toOption
  let sent ← (Wire.encodeNamed schema "OutboundMessage" drew).toOption
  let received ← (Wire.decodeNamed schema "InboundMessage" (← Json.parse? highlight)).toOption
  let rejected := match Wire.decodeNamed schema "InboundMessage" reset with
    | .error error => "rejected: " ++ error.message ++ "\n"
    | .ok _ => ""
  return shown "--" "src/Port.elm" output.elm ++
    shown "//" "src/Main.d.ts" output.typeScript ++
    "OutboundMessage = " ++ sent.pretty ++ "\n" ++
    "InboundMessage = " ++ received.inspect ++ "\n" ++ rejected

end ElmWire.Demo
