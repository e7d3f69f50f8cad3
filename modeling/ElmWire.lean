import ElmWire.Command.Run
import ElmWire.Compile.Output
import ElmWire.Demo
import ElmWire.Main
import ElmWire.Proofs.Elm.Decoder
import ElmWire.Proofs.Elm.Encoder
import ElmWire.Proofs.Extraction.WellFormed
import ElmWire.Proofs.Layout.Algebra
import ElmWire.Proofs.Layout.Width
import ElmWire.Proofs.TypeScript.Inhabitants
import ElmWire.Proofs.Wire.Normal
import ElmWire.Proofs.Wire.Recursion
import ElmWire.Proofs.Wire.Reachability
import ElmWire.Proofs.Wire.Termination
import ElmWire.Proofs.Wire.Locality
import ElmWire.Proofs.Layout.OneLine
import ElmWire.Proofs.Elm.Printing
import ElmWire.Proofs.Elm.Scope
import ElmWire.Proofs.Compile.Closed
import ElmWire.Proofs.Decimal.Grammar
import ElmWire.Proofs.Layout.Laws
import ElmWire.Proofs.Elm.Kind
import ElmWire.Proofs.Extraction.Clashes
import ElmWire.Proofs.Json.Reading
import ElmWire.Proofs.Json.Printing
import ElmWire.Proofs.Json.Fields
import ElmWire.Proofs.Source.Spelling
import ElmWire.Proofs.Source.RoundTrip
import ElmWire.Wire.Message
import ElmWire.Proofs.Wire.Message
import ElmWire.Proofs.Command.Disk
import ElmWire.Proofs.Command.Plan
import ElmWire.Proofs.Compile.Slots
import ElmWire.Proofs.Command.Outputs
import ElmWire.Proofs.Layout.Hardline
import ElmWire.Proofs.Layout.Group
import ElmWire.Proofs.Layout.LookAhead
import ElmWire.Proofs.Extraction.Report
import ElmWire.Proofs.Extraction.Offences
import ElmWire.Proofs.Wire.Unread
import ElmWire.Proofs.Layout.Offside
import ElmWire.Proofs.Layout.Lines
import ElmWire.Proofs.Elm.Offside
import ElmWire.Proofs.Elm.Token
import ElmWire.Proofs.Elm.TypeGrammar
import ElmWire.Proofs.Elm.ExprGrammar
import ElmWire.Proofs.Elm.Spelling
import ElmWire.Proofs.Elm.CodecText
import ElmWire.Proofs.Elm.Hygiene
import ElmWire.Proofs.Layout.Trailing
import ElmWire.Proofs.Elm.Naming
import ElmWire.Proofs.Elm.Trailing
import ElmWire.Proofs.Elm.Lexeme
import ElmWire.Proofs.Elm.OperatorGrammar
import ElmWire.Proofs.Elm.FlatText
import ElmWire.Proofs.Elm.ExprLexemes
import ElmWire.Proofs.Elm.Reading
import ElmWire.Proofs.Elm.Precedence
import ElmWire.Proofs.Template.Substitution
import ElmWire.Proofs.Layout.Modes
