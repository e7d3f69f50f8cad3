import Mathlib.Algebra.GroupWithZero.Nat
import ElmWire.Json.Basic
import ElmWire.Value

/-!
# Going down into values and JSON

Values and JSON are recursive through lists of themselves and through lists of named members.  The
*parts* of a value are the values directly inside it, whatever names they have there, and
`Value.induction_parts` is induction on that: to prove something of a value one may assume it of its
parts.  `Value.size` counts the values in a value: itself and those in its parts.
`Json.parts`, `Json.induction_parts` and `Json.size` are the same for JSON.
-/

set_option autoImplicit false
namespace ElmWire

/-! ## Values -/

/-- The values directly inside a value. -/
def Value.parts : Value → List Value
  | .list items | .tuple items | .variant _ items => items
  | .record fields => fields.map Prod.snd
  | _ => []

theorem Value.sizeOf_lt_of_mem_parts {v w : Value} (h : w ∈ v.parts) : sizeOf w < sizeOf v := by
  cases v with
  | list items | tuple items | variant name items =>
    have hlt : sizeOf _ < sizeOf items := List.sizeOf_lt_of_mem h
    simp
    omega
  | record fields =>
    obtain ⟨field, hfield, rfl⟩ := List.mem_map.1 h
    have hlt := List.sizeOf_lt_of_mem hfield
    have hsnd : sizeOf field.2 < sizeOf field := by
      obtain ⟨name, part⟩ := field
      show sizeOf part < sizeOf (name, part)
      rw [Prod.mk.sizeOf_spec]
      omega
    simp
    omega
  | unit | bool | int | float | char | string => simp [Value.parts] at h

/-- Induction on values, by way of their parts. -/
theorem Value.induction_parts {P : Value → Prop} (h : ∀ v, (∀ w ∈ v.parts, P w) → P v)
    (v : Value) : P v :=
  h v fun w _hw => Value.induction_parts h w
termination_by sizeOf v
decreasing_by exact Value.sizeOf_lt_of_mem_parts _hw

mutual

/-- How many values there are in a value, itself included. -/
def Value.size : Value → Nat
  | .list items | .tuple items | .variant _ items => 1 + Value.itemsSize items
  | .record fields => 1 + Value.fieldsSize fields
  | _ => 1

/-- How many values there are in several. -/
def Value.itemsSize : List Value → Nat
  | [] => 0
  | v :: rest => v.size + Value.itemsSize rest

/-- How many values there are in the fields of a record. -/
def Value.fieldsSize : List (String × Value) → Nat
  | [] => 0
  | (_, v) :: rest => v.size + Value.fieldsSize rest

end

theorem Value.itemsSize_eq (items : List Value) :
    Value.itemsSize items = (items.map Value.size).sum := by
  induction items with
  | nil => rw [Value.itemsSize]; rfl
  | cons v rest ih => rw [Value.itemsSize, ih, List.map_cons, List.sum_cons]

theorem Value.fieldsSize_eq (fields : List (String × Value)) :
    Value.fieldsSize fields = ((fields.map Prod.snd).map Value.size).sum := by
  induction fields with
  | nil => rw [Value.fieldsSize]; rfl
  | cons field rest ih => rw [Value.fieldsSize, ih, List.map_cons, List.map_cons, List.sum_cons]

theorem Value.size_eq (v : Value) : v.size = 1 + (v.parts.map Value.size).sum := by
  cases v with
  | list items | tuple items | variant name items => rw [Value.size, Value.itemsSize_eq]; rfl
  | record fields => rw [Value.size, Value.fieldsSize_eq]; rfl
  | unit | bool | int | float | char | string => rw [Value.size] <;> simp [Value.parts]

/-! ## JSON -/

/-- The JSON values directly inside a JSON value. -/
def Json.parts : Json → List Json
  | .array items => items
  | .object members => members.map Prod.snd
  | _ => []

theorem Json.sizeOf_lt_of_mem_parts {j k : Json} (h : k ∈ j.parts) : sizeOf k < sizeOf j := by
  cases j with
  | array items =>
    have hlt : sizeOf _ < sizeOf items := List.sizeOf_lt_of_mem h
    simp
    omega
  | object members =>
    obtain ⟨field, hfield, rfl⟩ := List.mem_map.1 h
    have hlt := List.sizeOf_lt_of_mem hfield
    have hsnd : sizeOf field.2 < sizeOf field := by
      obtain ⟨name, part⟩ := field
      show sizeOf part < sizeOf (name, part)
      rw [Prod.mk.sizeOf_spec]
      omega
    simp
    omega
  | null | bool | number | string => simp [Json.parts] at h

/-- Induction on JSON, by way of its parts. -/
theorem Json.induction_parts {P : Json → Prop} (h : ∀ j, (∀ k ∈ j.parts, P k) → P j)
    (j : Json) : P j :=
  h j fun k _hk => Json.induction_parts h k
termination_by sizeOf j
decreasing_by exact Json.sizeOf_lt_of_mem_parts _hk

mutual

/-- How many JSON values there are in a JSON value, itself included. -/
def Json.size : Json → Nat
  | .array items => 1 + Json.itemsSize items
  | .object members => 1 + Json.membersSize members
  | _ => 1

/-- How many JSON values there are in several. -/
def Json.itemsSize : List Json → Nat
  | [] => 0
  | j :: rest => j.size + Json.itemsSize rest

/-- How many JSON values there are in the members of an object. -/
def Json.membersSize : List (String × Json) → Nat
  | [] => 0
  | (_, j) :: rest => j.size + Json.membersSize rest

end

theorem Json.itemsSize_eq (items : List Json) :
    Json.itemsSize items = (items.map Json.size).sum := by
  induction items with
  | nil => rw [Json.itemsSize]; rfl
  | cons j rest ih => rw [Json.itemsSize, ih, List.map_cons, List.sum_cons]

theorem Json.membersSize_eq (members : List (String × Json)) :
    Json.membersSize members = ((members.map Prod.snd).map Json.size).sum := by
  induction members with
  | nil => rw [Json.membersSize]; rfl
  | cons member rest ih => rw [Json.membersSize, ih, List.map_cons, List.map_cons, List.sum_cons]

theorem Json.size_eq (j : Json) : j.size = 1 + (j.parts.map Json.size).sum := by
  cases j with
  | array items => rw [Json.size, Json.itemsSize_eq]; rfl
  | object members => rw [Json.size, Json.membersSize_eq]; rfl
  | null | bool | number | string => rw [Json.size] <;> simp [Json.parts]

end ElmWire
