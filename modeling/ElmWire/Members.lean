/-!
# Members in key order

The members of a JSON object and the fields of a record value have no order of their own; a name
stands for at most one of them.  They are kept as a list of pairs in increasing order of the
names, which gives every such collection exactly one representation, and one order to print it in.

Both `Json` and `Value` are recursive through their members, so the order is not part of the type.
It is what `insert` keeps: a list that is built with `insert` or `ofList` is ordered.
-/

set_option autoImplicit false
namespace ElmWire

/-- Named members, in increasing order of their names. -/
abbrev Members (α : Type) := List (String × α)

namespace Members

variable {α : Type}

/-- Gives the member `name` the value `a`, whether or not there was such a member before. -/
def insert (name : String) (a : α) : Members α → Members α
  | [] => [(name, a)]
  | (other, b) :: rest =>
    if name < other then (name, a) :: (other, b) :: rest
    else if name = other then (name, a) :: rest
    else (other, b) :: insert name a rest

/-- Collects pairs in any order; the last pair with a name counts. -/
def ofList (pairs : List (String × α)) : Members α :=
  pairs.foldl (fun members pair => insert pair.1 pair.2 members) []

@[simp] theorem ofList_nil : ofList ([] : List (String × α)) = [] := rfl

/-- A member that was just inserted is found again. -/
@[simp] theorem lookup_insert_self (name : String) (a : α) (members : Members α) :
    (insert name a members).lookup name = some a := by
  induction members with
  | nil => simp [insert]
  | cons head rest ih =>
    obtain ⟨other, b⟩ := head
    by_cases below : name < other
    · simp [insert, below]
    · by_cases same : name = other
      · simp [insert, same]
      · have differs : (name == other) = false := by simp [same]
        simp [insert, below, same, List.lookup_cons, differs, ih]

/-- Inserting a member leaves the others alone. -/
theorem lookup_insert_of_ne {name key : String} (h : key ≠ name) (a : α) (members : Members α) :
    (insert name a members).lookup key = members.lookup key := by
  have differs : (key == name) = false := by simp [h]
  induction members with
  | nil => simp [insert, List.lookup_cons, differs]
  | cons head rest ih =>
    obtain ⟨other, b⟩ := head
    by_cases below : name < other
    · simp [insert, below, List.lookup_cons, differs]
    · by_cases same : name = other
      · subst same
        simp [insert, List.lookup_cons, differs]
      · simp [insert, below, same, List.lookup_cons, ih]

end Members
end ElmWire
