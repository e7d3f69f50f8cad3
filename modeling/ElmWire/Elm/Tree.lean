/-!
# Elm code

Just enough of Elm to write down types, encoders and decoders: expressions, patterns, types and
top-level declarations.  Names are kept as text and may be qualified.
-/

set_option autoImplicit false
namespace ElmWire.Elm

/-- A pattern. -/
inductive Pattern where
  | var (name : String)
  | ctor (name : String) (arguments : List Pattern)
  | wildcard
  deriving Inhabited

/-- An expression. -/
inductive Expr where
  /-- A variable, a function or a constructor. -/
  | var (name : String)
  | string (s : String)
  | int (n : Int)
  | app (function : Expr) (arguments : List Expr)
  | lambda (params : List Pattern) (body : Expr)
  | list (items : List Expr)
  | tuple (items : List Expr)
  | record (fields : List (String × Expr))
  | access (subject : Expr) (field : String)
  | case (scrutinee : Expr) (branches : List (Pattern × Expr))
  /-- A value sent through functions, `head |> f |> g`. -/
  | pipe (head : Expr) (stages : List Expr)
  deriving Inhabited

/-- A type as it is written. -/
inductive TypeExpr where
  /-- A named type with its arguments. -/
  | named (name : String) (arguments : List TypeExpr)
  | unit
  | tuple (items : List TypeExpr)
  | record (fields : List (String × TypeExpr))
  | function (argument result : TypeExpr)
  deriving Inhabited

/-- A top-level declaration. -/
inductive Decl where
  | value (name : String) (signature : TypeExpr) (body : Expr)
  | alias (name : String) (type : TypeExpr)
  | custom (name : String) (ctors : List (String × List TypeExpr))
  deriving Inhabited

namespace Expr

/-- An expression applied to arguments.  Applying an application adds to its arguments. -/
def apply (function : Expr) (arguments : List Expr) : Expr :=
  match arguments with
  | [] => function
  | arguments =>
    match function with
    | .app function first => .app function (first ++ arguments)
    | function => .app function arguments

/-- A named function applied to arguments. -/
def call (name : String) (arguments : List Expr) : Expr := (Expr.var name).apply arguments

/-- A value sent through some functions. -/
def through (head : Expr) (stages : List Expr) : Expr :=
  match stages with
  | [] => head
  | stages => .pipe head stages

end Expr
end ElmWire.Elm
