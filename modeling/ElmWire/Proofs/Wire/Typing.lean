import ElmWire.Proofs.Parts
import ElmWire.Proofs.Wire.Codec
import ElmWire.Proofs.Wire.Resolution

/-!
# Values of a type

Which values belong to a type of a schema, said without the codec.

* `HasType schema extras type value` — the value belongs to the type.  A record value has all the
  fields of its type; whether it may have more is what `extras` says.
* `Value.declared schema type value` — the value without the fields that its type does not declare,
  at any depth.  A value without extra fields is left as it is (`declared_eq_self`).
* `Value.Ordered` — the fields of all records in a value are in order, as those of every record are
  that is built with `Value.ofFields` and `Value.set`.
-/

set_option autoImplicit false
namespace ElmWire

/-- The fields of all records in a value are in increasing order of their names. -/
inductive Value.Ordered : Value → Prop
  | intro {value : Value}
      (hfields : ∀ fields, value = .record fields → Members.Ordered fields)
      (hparts : ∀ part ∈ value.parts, Value.Ordered part) : Value.Ordered value

theorem Value.Ordered.fields {fields : List (String × Value)} (h : (Value.record fields).Ordered) :
    Members.Ordered fields := by
  obtain ⟨hfields, -⟩ := h
  exact hfields fields rfl

theorem Value.Ordered.part {value part : Value} (h : value.Ordered) (hpart : part ∈ value.parts) :
    part.Ordered := by
  obtain ⟨-, hparts⟩ := h
  exact hparts part hpart

theorem Value.ordered_iff {value : Value} : value.Ordered ↔
    (∀ fields, value = .record fields → Members.Ordered fields) ∧
      ∀ part ∈ value.parts, part.Ordered :=
  ⟨fun ⟨hfields, hparts⟩ => ⟨hfields, hparts⟩, fun ⟨hfields, hparts⟩ => ⟨hfields, hparts⟩⟩

theorem Value.Ordered.leaf {value : Value} (hparts : value.parts = [])
    (hrecord : ∀ fields, value ≠ .record fields) : value.Ordered := by
  rw [Value.ordered_iff, hparts]
  exact ⟨fun fields heq => absurd heq (hrecord fields), by simp⟩

@[simp] theorem Value.ordered_int (n : Int) : (Value.int n).Ordered :=
  Value.Ordered.leaf rfl (by simp)

@[simp] theorem Value.ordered_list {values : List Value} :
    (Value.list values).Ordered ↔ ∀ value ∈ values, value.Ordered := by
  rw [Value.ordered_iff]
  simp [Value.parts]

@[simp] theorem Value.ordered_tuple {values : List Value} :
    (Value.tuple values).Ordered ↔ ∀ value ∈ values, value.Ordered := by
  rw [Value.ordered_iff]
  simp [Value.parts]

@[simp] theorem Value.ordered_record {fields : List (String × Value)} :
    (Value.record fields).Ordered ↔
      Members.Ordered fields ∧ ∀ field ∈ fields, field.2.Ordered := by
  rw [Value.ordered_iff, Value.parts, List.forall_mem_map]
  simp

@[simp] theorem Value.ordered_variant {name : String} {arguments : List Value} :
    (Value.variant name arguments).Ordered ↔ ∀ argument ∈ arguments, argument.Ordered := by
  rw [Value.ordered_iff]
  simp [Value.parts]

namespace Wire

/-! ## Belonging to a type -/

/-- May a record have fields that its type does not declare? -/
inductive Extras where
  | allowed
  | forbidden
  deriving DecidableEq

/-- A value belongs to a type. -/
inductive HasType (schema : Schema) (extras : Extras) : Ty → Value → Prop
  | unit : HasType schema extras .unit .unit
  | bool (b : Bool) : HasType schema extras .bool (.bool b)
  /-- An integer is one that a floating-point number holds exactly. -/
  | int {n : Int} (hlow : -9007199254740991 ≤ n) (hhigh : n ≤ 9007199254740991) :
      HasType schema extras .int (.int n)
  | float {x : Float} (h : x.isFinite) : HasType schema extras .float (.float x)
  | char (c : Char) : HasType schema extras .char (.char c)
  | string (s : String) : HasType schema extras .string (.string s)
  | list {item : Ty} {values : List Value}
      (h : ∀ value ∈ values, HasType schema extras item value) :
      HasType schema extras (.list item) (.list values)
  | pair {first second : Ty} {v w : Value} (hv : HasType schema extras first v)
      (hw : HasType schema extras second w) :
      HasType schema extras (.pair first second) (.tuple [v, w])
  | triple {first second third : Ty} {u v w : Value} (hu : HasType schema extras first u)
      (hv : HasType schema extras second v) (hw : HasType schema extras third w) :
      HasType schema extras (.triple first second third) (.tuple [u, v, w])
  | record {fields : List (String × Ty)} {values : List (String × Value)}
      (hfound : ∀ field ∈ fields, ∃ value, values.lookup field.1 = some value)
      (hparts : ∀ field ∈ fields, ∀ value, values.lookup field.1 = some value →
        HasType schema extras field.2 value)
      (hextras : extras = .forbidden → ∀ value ∈ values, value.1 ∈ fields.map Prod.fst) :
      HasType schema extras (.record fields) (.record values)
  | just {item : Ty} {v : Value} (h : HasType schema extras item v) :
      HasType schema extras (.maybe item) (.just v)
  | nothing (item : Ty) : HasType schema extras (.maybe item) .nothing
  | ok (error : Ty) {success : Ty} {v : Value} (h : HasType schema extras success v) :
      HasType schema extras (.result error success) (.ok v)
  | err {error : Ty} (success : Ty) {v : Value} (h : HasType schema extras error v) :
      HasType schema extras (.result error success) (.err v)
  | hop {name d : String} {type : Ty} {value : Value}
      (hget : schema.get? name = some (.alias d type)) (h : HasType schema extras type value) :
      HasType schema extras (.named name) value
  | custom {name d : String} {ctors : List Ctor} {ctor : Ctor} {values : List Value}
      (hget : schema.get? name = some (.custom d ctors))
      (hctor : ctors.find? (fun other => other.name = ctor.name) = some ctor)
      (hlength : ctor.arguments.length = values.length)
      (h : ∀ pair ∈ ctor.arguments.zip values, HasType schema extras pair.1 pair.2) :
      HasType schema extras (.named name) (.variant ctor.name values)

end Wire

/-! ## Leaving out what is not declared -/

open Wire

mutual

/-- A value without the fields that its type does not declare. -/
def Value.declared (schema : Schema) (type : Ty) (value : Value) : Value :=
  match schema.shape type, value with
  | .ok (.list item), .list values => .list (declaredItems schema item values)
  | .ok (.tuple types), .tuple values => .tuple (declaredEach schema types values)
  | .ok (.record fields), .record values => .record (declaredFields schema fields values)
  | .ok (.tagged _ ctors), .variant name values =>
    match ctor? ctors name with
    | .ok ctor => .variant name (declaredEach schema ctor.arguments values)
    | .error _ => .variant name values
  | _, value => value

/-- Values of one type without undeclared fields. -/
def declaredItems (schema : Schema) (type : Ty) : List Value → List Value
  | [] => []
  | value :: rest => value.declared schema type :: declaredItems schema type rest

/-- Values of a type each without undeclared fields. -/
def declaredEach (schema : Schema) : List Ty → List Value → List Value
  | type :: types, value :: rest => value.declared schema type :: declaredEach schema types rest
  | _, _ => []

/-- The fields that are declared, without undeclared fields further down. -/
def declaredFields (schema : Schema) (fields : List (String × Ty)) :
    List (String × Value) → List (String × Value)
  | [] => []
  | (name, value) :: rest =>
    match fields.lookup name with
    | some type => (name, value.declared schema type) :: declaredFields schema fields rest
    | none => declaredFields schema fields rest

end

theorem declaredItems_eq (schema : Schema) (type : Ty) (values : List Value) :
    declaredItems schema type values = values.map (Value.declared schema type) := by
  induction values with
  | nil => rw [declaredItems]; rfl
  | cons value rest ih => rw [declaredItems, ih]; rfl

theorem declaredEach_eq (schema : Schema) (types : List Ty) (values : List Value) :
    declaredEach schema types values = List.zipWith (Value.declared schema) types values := by
  induction types generalizing values with
  | nil => rw [declaredEach, List.zipWith_nil_left]; simp
  | cons type types ih =>
    cases values with
    | nil => rw [declaredEach, List.zipWith_nil_right]; simp
    | cons value rest => rw [declaredEach, List.zipWith_cons_cons, ih]

theorem lookup_declaredFields (schema : Schema) (fields : List (String × Ty))
    (values : List (String × Value)) (key : String) :
    (declaredFields schema fields values).lookup key =
      (fields.lookup key).bind fun type =>
        (values.lookup key).map (Value.declared schema type) := by
  induction values with
  | nil => rw [declaredFields]; cases fields.lookup key <;> rfl
  | cons head rest ih =>
    obtain ⟨name, value⟩ := head
    rw [declaredFields]
    by_cases heq : key = name
    · subst heq
      cases hfound : fields.lookup key with
      | none => rw [ih, hfound]; rfl
      | some type => simp
    · have hne : (key == name) = false := beq_eq_false_iff_ne.2 heq
      rw [List.lookup_cons, hne, ← ih]
      cases fields.lookup name with
      | none => rfl
      | some type => rw [List.lookup_cons, hne]

theorem map_fst_declaredFields (schema : Schema) (fields : List (String × Ty))
    (values : List (String × Value)) :
    ((declaredFields schema fields values).map Prod.fst).Sublist (values.map Prod.fst) := by
  induction values with
  | nil => rw [declaredFields]
  | cons head rest ih =>
    obtain ⟨name, value⟩ := head
    rw [declaredFields]
    cases fields.lookup name with
    | none => exact ih.cons name
    | some type => exact ih.cons_cons name

theorem ordered_declaredFields (schema : Schema) (fields : List (String × Ty))
    {values : List (String × Value)} (h : Members.Ordered values) :
    Members.Ordered (declaredFields schema fields values) := by
  rw [Members.Ordered, ← List.pairwise_map (f := Prod.fst) (R := fun a b => a < b)] at h ⊢
  exact h.sublist (map_fst_declaredFields schema fields values)

section

variable {schema : Schema} {type : Ty}

theorem declared_of_shape_eq {other : Ty} {value : Value}
    (h : schema.shape type = schema.shape other) :
    value.declared schema type = value.declared schema other := by
  rw [Value.declared.eq_def, Value.declared.eq_def, h]

theorem declared_list {item : Ty} (h : schema.shape type = .ok (.list item)) (values : List Value) :
    (Value.list values).declared schema type = .list (values.map (Value.declared schema item)) := by
  rw [Value.declared.eq_def, h]
  exact congrArg Value.list (declaredItems_eq schema item values)

theorem declared_tuple {types : List Ty} (h : schema.shape type = .ok (.tuple types))
    (values : List Value) :
    (Value.tuple values).declared schema type =
      .tuple (List.zipWith (Value.declared schema) types values) := by
  rw [Value.declared.eq_def, h]
  exact congrArg Value.tuple (declaredEach_eq schema types values)

theorem declared_record {fields : List (String × Ty)} (h : schema.shape type = .ok (.record fields))
    (values : List (String × Value)) :
    (Value.record values).declared schema type = .record (declaredFields schema fields values) := by
  rw [Value.declared.eq_def, h]

theorem declared_variant {label tag : String} {ctors : List Ctor} {ctor : Ctor}
    (h : schema.shape type = .ok (.tagged label ctors)) (hctor : ctor? ctors tag = .ok ctor)
    (values : List Value) :
    (Value.variant tag values).declared schema type =
      .variant tag (List.zipWith (Value.declared schema) ctor.arguments values) := by
  rw [Value.declared.eq_def, h]
  show (match ctor? ctors tag with | .ok ctor => _ | .error _ => _) = _
  rw [hctor]
  exact congrArg (Value.variant tag) (declaredEach_eq schema ctor.arguments values)

end

end ElmWire
