import ElmWire.Elm.Tree
import ElmWire.Json.Printer
import ElmWire.Layout.Best

/-!
# Elm code as documents

How Elm code is laid out.  Applications, lambdas and pipes stay in one line if they fit, and are
otherwise broken with four more columns of indentation; lists, tuples and records are broken with
an item a line and the separators under the opening bracket.  A case expression is always broken.

An expression or a type is printed for the place it stands in, given as the loosest construction
that may stand there without parentheses.
-/

set_option autoImplicit false
namespace ElmWire.Elm

open Layout

/-- The places of expressions, from those where anything may stand to those where only what needs
no parentheses anywhere may. -/
inductive Prec where
  | top
  | pipe
  | app
  | atomic
  deriving Repr, DecidableEq

/-- How tightly an expression has to hold together in a place. -/
def Prec.level : Prec → Nat
  | .top => 0
  | .pipe => 1
  | .app => 2
  | .atomic => 3

/-- The places of types: anywhere, left of an arrow, and as an argument. -/
inductive TypePrec where
  | top
  | arrow
  | argument
  deriving Repr, DecidableEq

/-- How tightly a type has to hold together in a place. -/
def TypePrec.level : TypePrec → Nat
  | .top => 0
  | .arrow => 1
  | .argument => 2

/-- The columns that broken constructions are indented by. -/
def indentation : Int := 4

/-- Parentheses, where they are needed. -/
def parens (needed : Bool) (d : Doc) : Doc :=
  if needed then Doc.surround "(" d ")" else d

/-- Bracketed items: in one line, or an item a line with the separators under the bracket. -/
def sequence (opening : String) (items : List Doc) (closing : String) : Doc :=
  match items with
  | [] => .text (opening ++ closing)
  | items =>
    (Doc.text (opening ++ " ") ++ Doc.join (.line ", " ", ") items ++ .line " " "" ++
      .text closing).align.group

/-- A head and its parts, in one line or each part on an indented line of its own. -/
def spread (head : Doc) (parts : List Doc) : Doc :=
  (head ++ (Doc.concat (parts.map (Doc.space ++ ·))).nest indentation).group

/-! ## Patterns -/

mutual

/-- A pattern; in an `atomic` place a constructor with arguments needs parentheses. -/
def Pattern.toDoc (atomic : Bool) : Pattern → Doc
  | .var name => .text name
  | .wildcard => .text "_"
  | .ctor name [] => .text name
  | .ctor name arguments => parens atomic (.text name ++ Doc.concat (patternDocs arguments))

/-- The arguments of a constructor pattern, each after a space. -/
def patternDocs : List Pattern → List Doc
  | [] => []
  | pattern :: rest => (Doc.text " " ++ pattern.toDoc true) :: patternDocs rest

end

/-! ## Expressions -/

mutual

/-- An expression in a place. -/
def Expr.toDoc (prec : Prec) : Expr → Doc
  | .var name => .text name
  | .string s => .text (Json.quote s)
  | .int n => .text (toString n)
  | .app function arguments =>
    parens (prec.level > Prec.app.level)
      (spread (function.toDoc .atomic) (exprDocs .atomic arguments))
  | .lambda params body =>
    parens (prec.level > Prec.top.level)
      (spread
        (Doc.text "\\" ++ Doc.join (.text " ") (params.map (Pattern.toDoc true)) ++ .text " ->")
        [body.toDoc .top])
  | .list items => sequence "[" (exprDocs .top items) "]"
  | .tuple items => sequence "(" (exprDocs .top items) ")"
  | .record fields => sequence "\x7b" (fieldDocs fields) "\x7d"
  | .access subject field => subject.toDoc .atomic ++ .text ("." ++ field)
  | .case scrutinee branches =>
    parens (prec.level > Prec.top.level)
      (Doc.text "case " ++ scrutinee.toDoc .top ++ .text " of" ++
        (Doc.hardline ++ Doc.join (Doc.hardline ++ .hardline) (branchDocs branches)).nest
          indentation)
  | .pipe head stages =>
    parens (prec.level > Prec.pipe.level)
      (spread (head.toDoc .pipe) ((exprDocs .pipe stages).map (Doc.text "|> " ++ ·)))

/-- Several expressions in places of the same kind. -/
def exprDocs (prec : Prec) : List Expr → List Doc
  | [] => []
  | e :: rest => e.toDoc prec :: exprDocs prec rest

/-- The fields of a record. -/
def fieldDocs : List (String × Expr) → List Doc
  | [] => []
  | (name, e) :: rest => (Doc.text (name ++ " = ") ++ e.toDoc .top) :: fieldDocs rest

/-- The branches of a case expression. -/
def branchDocs : List (Pattern × Expr) → List Doc
  | [] => []
  | (pattern, body) :: rest =>
    (pattern.toDoc false ++ .text " ->" ++ (Doc.hardline ++ body.toDoc .top).nest indentation) ::
      branchDocs rest

end

/-! ## Types -/

mutual

/-- A type in a place. -/
def TypeExpr.toDocIn (prec : TypePrec) : TypeExpr → Doc
  | .named name [] => .text name
  | .named name arguments =>
    parens (prec.level ≥ TypePrec.argument.level)
      (spread (.text name) (typeDocs .argument arguments))
  | .unit => .text "()"
  | .tuple items => sequence "(" (typeDocs .top items) ")"
  | .record fields => sequence "\x7b" (typeFieldDocs fields) "\x7d"
  | .function argument result =>
    parens (prec.level ≥ TypePrec.arrow.level)
      (argument.toDocIn .arrow ++ .text " -> " ++ result.toDocIn .top)

/-- Several types in places of the same kind. -/
def typeDocs (prec : TypePrec) : List TypeExpr → List Doc
  | [] => []
  | type :: rest => type.toDocIn prec :: typeDocs prec rest

/-- The fields of a record type. -/
def typeFieldDocs : List (String × TypeExpr) → List Doc
  | [] => []
  | (name, type) :: rest =>
    (Doc.text (name ++ " : ") ++ type.toDocIn .top) :: typeFieldDocs rest

end

/-- A type that stands on its own. -/
def TypeExpr.toDoc (type : TypeExpr) : Doc := type.toDocIn .top

/-! ## Declarations -/

/-- A constructor of a custom type, after `lead`. -/
def ctorDoc (lead : String) (ctor : String × List TypeExpr) : Doc :=
  Doc.hardline ++ .text lead ++ .text ctor.1 ++
    Doc.concat ((typeDocs .argument ctor.2).map (Doc.text " " ++ ·))

/-- The constructors of a custom type. -/
def ctorDocs : List (String × List TypeExpr) → List Doc
  | [] => []
  | first :: rest => ctorDoc "= " first :: rest.map (ctorDoc "| ")

/-- A top-level declaration. -/
def Decl.toDoc : Decl → Doc
  | .value name signature body =>
    Doc.text (name ++ " : ") ++ signature.toDoc ++ .hardline ++ .text (name ++ " =") ++
      (Doc.hardline ++ body.toDoc .top).nest indentation
  | .alias name type =>
    Doc.text ("type alias " ++ name ++ " =") ++ (Doc.hardline ++ type.toDoc).nest indentation
  | .custom name ctors =>
    Doc.text ("type " ++ name) ++ (Doc.concat (ctorDocs ctors)).nest indentation

/-- The text of declarations, with two blank lines between them. -/
def renderDecls (width : Nat) (decls : List Decl) : String :=
  String.intercalate "\n\n\n" (decls.map fun decl => render width decl.toDoc)

end ElmWire.Elm
