import ElmWire.Json.Reader
import ElmWire.Text.Split

/-!
# Options of a compilation

Options are written as JSON.  All of them may be left out, but no others may be given.  They are
checked apart from reading, since they may also come from elsewhere.
-/

set_option autoImplicit false
namespace ElmWire.Compile

open Json (Form)

/-- What can be chosen about the generated files. -/
structure Options where
  /-- The name of the generated Elm module. -/
  moduleName : String
  /-- The Elm module that the TypeScript declarations are for. -/
  mainModule : String
  /-- The width of the page that the Elm code is laid out on. -/
  width : Nat
  deriving Repr, DecidableEq, Inhabited

/-- What is wrong with options. -/
inductive OptionsError where
  | invalidModuleName (name : String)
  | widthTooSmall (width : Nat)
  deriving Repr, DecidableEq

namespace Options

/-- The options where nothing is chosen. -/
def standard : Options := ⟨"Port", "Main", 80⟩

/-- The narrowest page that Elm code is laid out on. -/
def minWidth : Nat := 20

/-- A part of a module name: an upper-case letter, then letters, digits and underscores. -/
def isNamePart : List Char → Bool
  | [] => false
  | c :: cs => c.isUpper && cs.all fun c => c.isAlphanum || c = '_'

/-- Is it the name of an Elm module? -/
def isModuleName (name : String) : Bool := (Text.split '.' name.toList).all isNamePart

/-- Checks the two names and then the width. -/
def check (options : Options) : Except OptionsError Unit :=
  if !isModuleName options.moduleName then .error (.invalidModuleName options.moduleName)
  else if !isModuleName options.mainModule then .error (.invalidModuleName options.mainModule)
  else if options.width < minWidth then .error (.widthTooSmall options.width)
  else .ok ()

/-- The names of the options. -/
def names : List String := ["moduleName", "mainModule", "width"]

/-- Reads options; those that are not given are the standard ones. -/
def ofForm? (form : Form) : Option Options := do
  if !form.hasOnly names then none
  match ← form.fields? names with
  | [moduleName, mainModule, width] =>
    return {
      moduleName := ← Form.optional standard.moduleName Form.text? moduleName
      mainModule := ← Form.optional standard.mainModule Form.text? mainModule
      width := ← Form.optional standard.width Form.natural? width }
  | _ => none

/-- The options that a text spells. -/
def parse? (text : String) : Option Options := (Form.parse? text).bind ofForm?

end Options

/-- The text of the error of options. -/
def OptionsError.message : OptionsError → String
  | .invalidModuleName name => s!"Invalid Elm module name {name}"
  | .widthTooSmall width =>
    s!"Line width {width} is too narrow; use at least " ++ toString Options.minWidth

end ElmWire.Compile
