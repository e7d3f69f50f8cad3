/-!
# The names of the wire format

The names that both sides of the boundary have to agree on.  Everything that reads, writes or
describes messages takes them from here.

A tagged value travels as an object with the member `variantTag`, which holds the name of the
constructor, and the members `argKey 0`, `argKey 1`, … , which hold its arguments.
-/

set_option autoImplicit false
namespace ElmWire.Wire

/-- The member that holds the name of the constructor. -/
def variantTag : String := "variant"

/-- What the names of the members that hold arguments start with. -/
def argStem : String := "_"

/-- The member that holds the argument at a position. -/
def argKey (i : Nat) : String := argStem ++ toString i

/-- The constructor of the unit value. -/
def unitTag : String := "()"

/-- The constructor of a value that is there. -/
def just : String := "Just"

/-- The constructor of a value that is not there. -/
def nothing : String := "Nothing"

/-- The constructor of a success. -/
def ok : String := "Ok"

/-- The constructor of a failure. -/
def err : String := "Err"

end ElmWire.Wire
