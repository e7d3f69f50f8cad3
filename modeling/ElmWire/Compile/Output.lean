import ElmWire.Compile.Options
import ElmWire.Compile.Skeleton
import ElmWire.Elm.Codec
import ElmWire.Extraction.Schema
import ElmWire.Source.Json
import ElmWire.Template
import ElmWire.TypeScript

/-!
# Compiling a schema

A compilation makes two files of one schema: an Elm module with types and codecs, and TypeScript
declarations.  `ofSchema` compiles a schema, `ofModule` the schema that a module declares, and
`ofText` the module that a text spells.  Each checks what it is given before it passes it on, so
that the first fault on the way is the one that is reported.
-/

set_option autoImplicit false
namespace ElmWire.Compile

/-- Why a compilation fails. -/
inductive Error where
  /-- The text does not spell a module. -/
  | parse
  | options (error : OptionsError)
  | module (error : Extraction.ModuleError)
  | template (error : Template.Unfilled)

/-- The text of an error. -/
def Error.message : Error → String
  | .parse => "Parse error"
  | .options error => error.message
  | .module error => error.message
  | .template error => error.message

/-- The two generated files. -/
structure Output where
  elm : String
  typeScript : String

/-- What goes into the slots of the Elm module. -/
def elmSlots (options : Options) (schema : Schema) : List (String × String) :=
  [("module_name", options.moduleName),
    ("type_declarations", Elm.renderTypes options.width schema),
    ("codecs", Elm.renderCodecs options.width schema),
    ("variant_tag", Wire.variantTag),
    ("arg_prefix", Wire.argStem),
    ("unit_tag", Wire.unitTag),
    ("just", Wire.just),
    ("nothing", Wire.nothing),
    ("ok", Wire.ok),
    ("err", Wire.err)]

/-- What goes into the slots of the TypeScript declarations. -/
def typeScriptSlots (options : Options) (schema : Schema) : List (String × String) :=
  [("main_module", options.mainModule),
    ("prelude", TypeScript.genericTypes),
    ("type_declarations", schema.toTypeScript)]

namespace Output

/-- Compiles a schema. -/
def ofSchema (options : Options) (schema : Schema) : Except Error Output := do
  options.check.mapError Error.options
  let elm ← (Template.fill elmSkeleton (elmSlots options schema)).mapError Error.template
  let typeScript ←
    (Template.fill typeScriptSkeleton (typeScriptSlots options schema)).mapError Error.template
  return ⟨elm, typeScript⟩

/-- Compiles the schema that a module declares. -/
def ofModule (options : Options) (m : Source.Module) : Except Error Output := do
  options.check.mapError Error.options
  let schema ← m.toSchema.mapError Error.module
  ofSchema options schema

/-- Compiles the module that a text spells. -/
def ofText (options : Options) (text : String) : Except Error Output :=
  match Source.Module.parse? text with
  | none => .error .parse
  | some m => ofModule options m

end Output
end ElmWire.Compile
