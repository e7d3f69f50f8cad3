import ElmWire.Extraction.Check

/-!
# The schema of a module

`Source.Module.toSchema` is the schema that a module declares.  What the module is comes first, and
there the first fault is the only one reported.  The faults of its declarations are then reported
all together: those of single declarations in their order, then those found by `check`.  Only a
module without any of these can lack one of the two message types.
-/

set_option autoImplicit false
namespace ElmWire.Source

open Extraction

/-- The definitions that declarations stand for, without those that stand for none. -/
def definitions (source : List Declaration) : List TypeDef :=
  source.filterMap fun d => d.toDef.toOption

/-- The errors of the declarations that stand for no definition. -/
def definitionErrors (source : List Declaration) : List DeclarationError :=
  source.filterMap fun d =>
    match d.toDef with
    | .ok _ => none
    | .error error => some error

/-- The first fault of a module that has nothing to do with its declarations. -/
def Module.headerError? (m : Module) : Option ModuleError :=
  match m.kind with
  | .port => some .portModule
  | .effect => some .effectModule
  | .normal =>
    if m.exposing ≠ .all then some .hidesNames
    else if !m.imports.isEmpty then some .hasImports
    else none

/-- All faults of the declarations of a module. -/
def Module.declarationErrors (m : Module) : List DeclarationError :=
  definitionErrors m.declarations ++ check m.declarations (definitions m.declarations)

/-- The schema that a module declares. -/
def Module.toSchema (m : Module) : Except ModuleError Schema :=
  match m.headerError? with
  | some error => .error error
  | none =>
    let errors := m.declarationErrors
    let schema : Schema := ⟨definitions m.declarations⟩
    if !errors.isEmpty then .error (.badDeclarations errors)
    else if !schema.contains outboundMessage then .error .noOutboundMessage
    else if !schema.contains inboundMessage then .error .noInboundMessage
    else .ok schema

end ElmWire.Source
