import ElmWire.Command.Path

/-!
# Arguments of the command line

A command is a word, followed by options; options that every command has may also stand in front
of it.  An option has a name, written after two hyphens, and perhaps a letter, written after one.
If it takes a value, this is the next argument, or it follows an equals sign; it may also follow
the letter directly.  Letters of several options can be joined, if only the last one takes a
value.  No option may be given twice, and nothing but options may be given.

`Command.parse?` has no answer where the arguments do not follow these rules.
-/

set_option autoImplicit false
namespace ElmWire
namespace Command

/-- An option of a command. -/
structure Flag where
  name : String
  letter : Option Char
  takesValue : Bool
  deriving Repr, DecidableEq

/-- Options that were given, each with its value, which is empty for those that take none. -/
abbrev Given := List (String × String)

/-! ## Options in general -/

/-- Is the argument written like an option?  A single hyphen is not. -/
def isOption (argument : String) : Bool :=
  match argument.toList with
  | '-' :: _ :: _ => true
  | _ => false

/-- The options in an argument, and the one that has yet to get its value, if there is one. -/
abbrev Taken := Given × Option String

/-- Reads the letters of options. -/
def letters? (flags : List Flag) : List Char → Option Taken
  | [] => some ([], none)
  | c :: rest => do
    let flag ← flags.find? (·.letter = some c)
    if flag.takesValue then
      match rest with
      | [] => some ([], some flag.name)
      | '=' :: value => some ([(flag.name, String.ofList value)], none)
      | value => some ([(flag.name, String.ofList value)], none)
    else
      let (given, open?) ← letters? flags rest
      some ((flag.name, "") :: given, open?)

/-- Reads the name of an option, with its value if there is an equals sign. -/
def named? (flags : List Flag) (text : List Char) : Option Taken := do
  let name := String.ofList (text.takeWhile (· ≠ '='))
  let flag ← flags.find? (·.name = name)
  match text.dropWhile (· ≠ '='), flag.takesValue with
  | [], true => some ([], some flag.name)
  | _ :: value, true => some ([(flag.name, String.ofList value)], none)
  | [], false => some ([(flag.name, "")], none)
  | _ :: _, false => none

/-- Reads an argument that is written like an option. -/
def option? (flags : List Flag) (argument : String) : Option Taken :=
  match argument.toList with
  | '-' :: '-' :: text => named? flags text
  | '-' :: c :: text => letters? flags (c :: text)
  | _ => none

/-- Two hyphens alone say that no more options follow. -/
def endOfOptions : String := "--"

/-- Reads options with their values. -/
def options? (flags : List Flag) : List String → Option Given
  | [] => some []
  | argument :: rest =>
    if argument = endOfOptions then if rest.isEmpty then some [] else none
    else
      match option? flags argument with
      | none => none
      | some (given, none) => (options? flags rest).map (given ++ ·)
      | some (given, some name) =>
        match rest with
        | [] => none
        | value :: rest =>
          if isOption value then none
          else (options? flags rest).map (given ++ (name, value) :: ·)

/-- Reads options with their values, none of them given twice. -/
def distinctOptions? (flags : List Flag) (arguments : List String) : Option Given := do
  let given ← options? flags arguments
  if (given.map (·.1)).Nodup then some given else none

/-! ## The commands -/

/-- What a compilation reads and writes, and the options that are chosen for it. -/
structure CompileRequest where
  input : Path
  elmOutput : Path
  typeScriptOutput : Path
  config : Option Path
  moduleName : Option String
  mainModule : Option String
  width : Option Nat
  deriving Repr, DecidableEq

end Command

/-- What the program is asked to do. -/
inductive Command where
  /-- Compile a module. -/
  | compile (request : Command.CompileRequest)
  /-- Show the schema that a module declares. -/
  | schema (input : Command.Path)
  deriving Repr, DecidableEq

namespace Command

/-- Asks for more to be logged.  It may stand anywhere and changes no result. -/
def verboseFlag : Flag := ⟨"verbose", some 'v', false⟩

def inputFlag : Flag := ⟨"input", some 'i', true⟩
def elmOutputFlag : Flag := ⟨"elm-output", none, true⟩
def typeScriptOutputFlag : Flag := ⟨"ts-output", none, true⟩
def configFlag : Flag := ⟨"config", some 'c', true⟩
def moduleNameFlag : Flag := ⟨"module-name", none, true⟩
def mainModuleFlag : Flag := ⟨"main-module", none, true⟩
def widthFlag : Flag := ⟨"width", none, true⟩

/-- The options of a compilation. -/
def compileFlags : List Flag :=
  [verboseFlag, inputFlag, elmOutputFlag, typeScriptOutputFlag, configFlag, moduleNameFlag,
    mainModuleFlag, widthFlag]

/-- The options for showing a schema. -/
def schemaFlags : List Flag := [verboseFlag, inputFlag]

/-- Where the Elm module goes if nothing else is said. -/
def standardElmOutput : Path := ⟨"src/Port.elm"⟩

/-- Where the TypeScript declarations go if nothing else is said. -/
def standardTypeScriptOutput : Path := ⟨"src/Main.d.ts"⟩

/-- The path that an option gives, if it is given.  A path is not empty. -/
def path? (given : Given) (flag : Flag) : Option (Option Path) :=
  match given.lookup flag.name with
  | none => some none
  | some text => if text.isEmpty then none else some (some ⟨text⟩)

/-- The digits of a number, after a plus sign if there is one. -/
def digits : List Char → List Char
  | '+' :: rest => rest
  | text => text

/-- The width that an option gives, if it is given.  A width is a number of 64 bits. -/
def width? (given : Given) : Option (Option Nat) :=
  match given.lookup widthFlag.name with
  | none => some none
  | some text =>
    let digits := digits text.toList
    let n := digits.foldl (fun n c => n * 10 + (c.toNat - '0'.toNat)) 0
    if !digits.isEmpty && digits.all Char.isDigit && n < Nat.pow 2 64 then some (some n) else none

/-- The compilation that the options ask for. -/
def compileRequest? (given : Given) : Option CompileRequest := do
  let input ← path? given inputFlag
  let elmOutput ← path? given elmOutputFlag
  let typeScriptOutput ← path? given typeScriptOutputFlag
  let config ← path? given configFlag
  let width ← width? given
  return {
    input := ← input
    elmOutput := elmOutput.getD standardElmOutput
    typeScriptOutput := typeScriptOutput.getD standardTypeScriptOutput
    config := config
    moduleName := given.lookup moduleNameFlag.name
    mainModule := given.lookup mainModuleFlag.name
    width := width }

/-- The command that the arguments ask for. -/
def parse? (arguments : List String) : Option Command := do
  let leading := arguments.takeWhile isOption
  if leading.contains endOfOptions then none
  let _ ← distinctOptions? [verboseFlag] leading
  match arguments.dropWhile isOption with
  | "compile" :: rest => return .compile (← compileRequest? (← distinctOptions? compileFlags rest))
  | "schema" :: rest => return .schema (← (← path? (← distinctOptions? schemaFlags rest) inputFlag))
  | _ => none

end Command
end ElmWire
