import ElmWire.Text.Split

/-!
# Paths of files

A path is kept as the text that was given, since this is how it is shown.  What it leads to is
told by its names: empty names and single points stay where they are and are left out, while two
points lead back to the directory above.
-/

set_option autoImplicit false
namespace ElmWire.Command

/-- The path of a file or a directory. -/
structure Path where
  text : String
  deriving Repr, DecidableEq, Inhabited

namespace Path

/-- How a path ends. -/
inductive Ending where
  /-- With a name. -/
  | name
  /-- With a name and a slash. -/
  | slash
  /-- With a point, which stands for a directory. -/
  | point
  deriving Repr, DecidableEq

/-- The name that leads back to the directory above. -/
def above : String := ".."

/-- The name that leads nowhere. -/
def here : String := "."

/-- Does the path start at the root of all directories? -/
def isAbsolute (path : Path) : Bool := path.text.toList.head? == some '/'

/-- The names on the way. -/
def names (path : Path) : List String :=
  (Text.pieces '/' path.text).filter fun name => name ≠ "" ∧ name ≠ here

/-- How the path ends. -/
def ending (path : Path) : Ending :=
  match (Text.pieces '/' path.text).reverse with
  | "" :: rest => if (rest.dropWhile (· = "")).head? = some here then .point else .slash
  | name :: _ => if name = here then .point else .name
  | [] => .name

/-- The path that goes along some names. -/
def ofNames (absolute : Bool) (names : List String) : Path :=
  ⟨(if absolute then "/" else "") ++ String.intercalate "/" names⟩

/-- The paths along some names and along all but the last of them, and so on, given the names with
the last one first. -/
def backwards (absolute : Bool) : List String → List Path
  | [] => []
  | name :: rest => ofNames absolute (name :: rest).reverse :: backwards absolute rest

/-- The directories on the way to a path, the nearest one first. -/
def parents (path : Path) : List Path :=
  backwards path.isAbsolute path.names.dropLast.reverse

end Path
end ElmWire.Command
