/-!
# Elm modules, as far as schemas need them

A schema is written as an Elm module.  Parsing Elm is somebody else's job; what arrives here is the
parsed module with everything dropped that plays no part in deciding whether it is a schema, and
which one: positions, comments and expressions.
-/

set_option autoImplicit false
namespace ElmWire.Source

/-- The three kinds of Elm modules. -/
inductive ModuleKind where
  | normal
  | port
  | effect
  deriving Repr, DecidableEq, Inhabited

/-- What a module exposes: everything, or the names in a list. -/
inductive Exposing where
  | all
  | explicit (names : List String)
  deriving Repr, DecidableEq, Inhabited

/-- An import of the module `name`. -/
structure Import where
  name : String
  deriving Repr, DecidableEq, Inhabited

/-- A type as it is written in a declaration: a type term. -/
inductive TypeTerm where
  /-- A type variable, `a`. -/
  | var (name : String)
  /-- A named type with its arguments, `Name arg1 arg2`. -/
  | named (name : String) (arguments : List TypeTerm)
  /-- The unit type, `()`. -/
  | unit
  /-- A tuple, `( a, b )`. -/
  | tuple (items : List TypeTerm)
  /-- A record, with its fields in order. -/
  | record (fields : List (String × TypeTerm))
  /-- A record that extends the type variable `base`. -/
  | extension (base : String) (fields : List (String × TypeTerm))
  /-- A function, `a -> b`. -/
  | function (argument result : TypeTerm)
  deriving Inhabited

/-- A constructor of a custom type. -/
structure Constructor where
  name : String
  arguments : List TypeTerm
  deriving Inhabited

/-- A top-level declaration. -/
inductive Declaration where
  /-- A function or a constant. -/
  | value (name : String)
  /-- A top-level pattern, `( a, b ) = pair`. -/
  | destructuring
  | alias (name : String) (parameters : List String) (written : TypeTerm)
  | custom (name : String) (parameters : List String) (constructors : List Constructor)
  /-- The signature of a port. -/
  | port (name : String) (written : TypeTerm)
  /-- An operator and the function that it stands for. -/
  | operator (symbol function : String)
  deriving Inhabited

/-- A parsed module. -/
structure Module where
  name : String
  kind : ModuleKind
  exposing : Exposing
  imports : List Import
  declarations : List Declaration
  deriving Inhabited

end ElmWire.Source
