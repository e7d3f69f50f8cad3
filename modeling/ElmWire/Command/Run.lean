import ElmWire.Command.Arguments
import ElmWire.Command.Plan
import ElmWire.Compile.Output
import ElmWire.Json.Printer
import ElmWire.Schema.Json

/-!
# What the commands do

`Command.run` is the plan of a command; its result is the text to show, or an error.  A compilation
reads the options before the module, and it writes no file before both of them are made.
-/

set_option autoImplicit false
namespace ElmWire
namespace Command

/-- Why a command fails. -/
inductive Error where
  /-- A file cannot be read or written. -/
  | file (path : Path) (fault : Fault)
  /-- The file of options does not spell options. -/
  | config
  | compile (error : Compile.Error)

/-- The text of an error. -/
def Error.message : Error → String
  | .file path fault => s!"{path.text}: {fault.message}"
  | .config => "Invalid JSON"
  | .compile error => error.message

/-- A plan that may fail. -/
abbrev Attempt := ExceptT Error Plan

/-- The contents of a file. -/
def read (path : Path) : Attempt String :=
  .mk (.read path fun answer => .done (answer.mapError (.file path)))

/-- Writes a file, in a directory that is made if there is none. -/
def save (path : Path) (contents : String) : Attempt Unit :=
  .mk ((Plan.save path contents).bind fun answer => .done (answer.mapError (.file path)))

/-- The options in a file, or the standard ones if there is no file. -/
def configured : Option Path → Attempt Compile.Options
  | none => return .standard
  | some path => do
    match Compile.Options.parse? (← read path) with
    | some options => return options
    | none => throw .config

/-- Options from the command line count more than others. -/
def CompileRequest.override (request : CompileRequest) (options : Compile.Options) :
    Compile.Options where
  moduleName := request.moduleName.getD options.moduleName
  mainModule := request.mainModule.getD options.mainModule
  width := request.width.getD options.width

/-- Compiles a module and writes the two files. -/
def CompileRequest.run (request : CompileRequest) : Attempt String := do
  let options := request.override (← configured request.config)
  let text ← read request.input
  match Compile.Output.ofText options text with
  | .error error => throw (.compile error)
  | .ok output =>
    save request.elmOutput output.elm
    save request.typeScriptOutput output.typeScript
    return "Compiled " ++ request.input.text ++ " → " ++ request.elmOutput.text ++ ", " ++
      request.typeScriptOutput.text ++ "\n"

/-- The schema that the module in a file declares, as JSON. -/
def schemaText (input : Path) : Attempt String := do
  match Source.Module.parse? (← read input) with
  | none => throw (.compile .parse)
  | some m =>
    match m.toSchema with
    | .error error => throw (.compile (.module error))
    | .ok declared => return declared.toJson.pretty ++ "\n"

end Command

/-- What a command does, and the text that it shows. -/
def Command.run : Command → Command.Attempt String
  | .compile request => request.run
  | .schema input => Command.schemaText input

end ElmWire
