import ElmWire.Schema.Basic

/-!
# What is asked of schemas

Properties of schemas that statements about messages and about generated code start from.

* `Schema.Closed` — every name that a definition refers to is defined.
* `Ty.records`, `Schema.records` — all record types that occur somewhere, each as its list of
  fields, so that a condition on records is a condition on the members of one list.
* `Ty.DistinctFields`, `Schema.DistinctFields` — no record type repeats a field name.
* `Ty.HasFields`, `Schema.HasFields` — no record type is without fields.
* `isUpperName`, `isLowerName` — the names that Elm allows for types and constructors, and for
  fields.
* `Schema.constructors` — the constructors that a schema introduces.

The lemmas pass such conditions on from a type to its parts.
-/

set_option autoImplicit false
namespace ElmWire

/-! ## References -/

/-- All names that a type refers to are defined. -/
def Ty.Over (type : Ty) (schema : Schema) : Prop :=
  ∀ name ∈ type.references, schema.contains name

/-- All names that the definitions refer to are defined. -/
def Schema.Closed (schema : Schema) : Prop :=
  ∀ d ∈ schema.defs, ∀ name ∈ d.references, schema.contains name

instance (type : Ty) (schema : Schema) : Decidable (type.Over schema) :=
  inferInstanceAs (Decidable (∀ name ∈ type.references, schema.contains name = true))

instance (schema : Schema) : Decidable schema.Closed :=
  inferInstanceAs (Decidable (∀ d ∈ schema.defs, ∀ name ∈ d.references,
    schema.contains name = true))

theorem references_subset_fieldReferences {fields : List (String × Ty)} {name : String} {type : Ty}
    (hmem : (name, type) ∈ fields) : type.references ⊆ fieldReferences fields := by
  induction fields with
  | nil => simp at hmem
  | cons head rest ih =>
    obtain ⟨other, first⟩ := head
    rw [fieldReferences]
    rcases List.mem_cons.1 hmem with heq | hmem
    · cases heq
      exact List.subset_append_left _ _
    · exact List.Subset.trans (ih hmem) (List.subset_append_right _ _)

theorem references_subset_of_mem_arguments {ctors : List Ctor} {ctor : Ctor} {type : Ty}
    (hctor : ctor ∈ ctors) (htype : type ∈ ctor.arguments) (name : String) :
    type.references ⊆ (TypeDef.custom name ctors).references := by
  intro reference hmem
  exact List.mem_flatMap.2 ⟨ctor, hctor, List.mem_flatMap.2 ⟨type, htype, hmem⟩⟩

theorem Ty.over_pair {schema : Schema} {first second : Ty} :
    (Ty.pair first second).Over schema ↔ first.Over schema ∧ second.Over schema :=
  List.forall_mem_append

theorem Ty.over_result {schema : Schema} {error ok : Ty} :
    (Ty.result error ok).Over schema ↔ error.Over schema ∧ ok.Over schema :=
  List.forall_mem_append

theorem Ty.over_triple {schema : Schema} {first second third : Ty} :
    (Ty.triple first second third).Over schema ↔
      first.Over schema ∧ second.Over schema ∧ third.Over schema := by
  rw [Ty.Over, Ty.references, List.forall_mem_append, List.forall_mem_append, and_assoc]
  rfl

theorem Ty.Over.field {schema : Schema} {fields : List (String × Ty)}
    (h : (Ty.record fields).Over schema) {field : String × Ty} (hmem : field ∈ fields) :
    field.2.Over schema := fun name hname =>
  h name (references_subset_fieldReferences hmem hname)

theorem Schema.Closed.alias {schema : Schema} (h : schema.Closed) {name d : String} {type : Ty}
    (hget : schema.get? name = some (.alias d type)) : type.Over schema := fun other hmem =>
  h _ (List.mem_of_find?_eq_some hget) other hmem

theorem Schema.Closed.argument {schema : Schema} (h : schema.Closed) {name d : String}
    {ctors : List Ctor} (hget : schema.get? name = some (.custom d ctors)) {ctor : Ctor}
    (hctor : ctor ∈ ctors) {type : Ty} (htype : type ∈ ctor.arguments) : type.Over schema :=
  fun other hmem => h _ (List.mem_of_find?_eq_some hget) other
    (references_subset_of_mem_arguments hctor htype d hmem)

/-- The names that are defined, in order. -/
def Schema.names (schema : Schema) : List String := schema.defs.map TypeDef.name

theorem Schema.contains_iff_mem_names {schema : Schema} {name : String} :
    schema.contains name = true ↔ name ∈ schema.names := by
  rw [contains_iff, names, List.mem_map]

theorem Schema.mem_defs_of_get? {schema : Schema} {name : String} {d : TypeDef}
    (h : schema.get? name = some d) : d ∈ schema.defs := List.mem_of_find?_eq_some h

theorem Schema.mem_names_of_get? {schema : Schema} {name : String} {d : TypeDef}
    (h : schema.get? name = some d) : name ∈ schema.names := by
  rw [← Schema.name_of_get? h]
  exact List.mem_map_of_mem (Schema.mem_defs_of_get? h)

/-! ## Record types -/

mutual

/-- The record types that occur in a type, each as its list of fields. -/
def Ty.records : Ty → List (List (String × Ty))
  | .unit | .bool | .int | .float | .char | .string | .named _ => []
  | .list item | .maybe item => item.records
  | .pair first second => first.records ++ second.records
  | .triple first second third => first.records ++ second.records ++ third.records
  | .record fields => fields :: fieldRecords fields
  | .result error ok => error.records ++ ok.records

/-- The record types that occur in the fields of a record. -/
def fieldRecords : List (String × Ty) → List (List (String × Ty))
  | [] => []
  | (_, type) :: rest => type.records ++ fieldRecords rest

end

/-- The record types that occur in a definition. -/
def TypeDef.records : TypeDef → List (List (String × Ty))
  | .alias _ type => type.records
  | .custom _ ctors => ctors.flatMap fun ctor => ctor.arguments.flatMap Ty.records

/-- The record types that occur in the definitions of a schema. -/
def Schema.records (schema : Schema) : List (List (String × Ty)) :=
  schema.defs.flatMap TypeDef.records

/-- No record type that occurs in the type repeats a field name. -/
def Ty.DistinctFields (type : Ty) : Prop :=
  ∀ fields ∈ type.records, (fields.map Prod.fst).Nodup

/-- No record type that occurs in the schema repeats a field name. -/
def Schema.DistinctFields (schema : Schema) : Prop :=
  ∀ fields ∈ schema.records, (fields.map Prod.fst).Nodup

instance (type : Ty) : Decidable type.DistinctFields :=
  inferInstanceAs (Decidable (∀ fields ∈ type.records, (fields.map Prod.fst).Nodup))

instance (schema : Schema) : Decidable schema.DistinctFields :=
  inferInstanceAs (Decidable (∀ fields ∈ schema.records, (fields.map Prod.fst).Nodup))

theorem records_subset_fieldRecords {fields : List (String × Ty)} {name : String} {type : Ty}
    (hmem : (name, type) ∈ fields) : type.records ⊆ fieldRecords fields := by
  induction fields with
  | nil => simp at hmem
  | cons head rest ih =>
    obtain ⟨other, first⟩ := head
    rw [fieldRecords]
    rcases List.mem_cons.1 hmem with heq | hmem
    · cases heq
      exact List.subset_append_left _ _
    · exact List.Subset.trans (ih hmem) (List.subset_append_right _ _)

theorem Ty.distinctFields_pair {first second : Ty} :
    (Ty.pair first second).DistinctFields ↔ first.DistinctFields ∧ second.DistinctFields :=
  List.forall_mem_append

theorem Ty.distinctFields_result {error ok : Ty} :
    (Ty.result error ok).DistinctFields ↔ error.DistinctFields ∧ ok.DistinctFields :=
  List.forall_mem_append

theorem Ty.distinctFields_triple {first second third : Ty} :
    (Ty.triple first second third).DistinctFields ↔
      first.DistinctFields ∧ second.DistinctFields ∧ third.DistinctFields := by
  rw [Ty.DistinctFields, Ty.records, List.forall_mem_append, List.forall_mem_append, and_assoc]
  rfl

theorem Ty.DistinctFields.nodup {fields : List (String × Ty)}
    (h : (Ty.record fields).DistinctFields) : (fields.map Prod.fst).Nodup :=
  h fields (List.mem_cons_self ..)

theorem Ty.DistinctFields.field {fields : List (String × Ty)}
    (h : (Ty.record fields).DistinctFields) {field : String × Ty} (hmem : field ∈ fields) :
    field.2.DistinctFields := fun inner hinner =>
  h inner (List.mem_cons_of_mem _ (records_subset_fieldRecords hmem hinner))

theorem Schema.records_subset_of_alias {schema : Schema} {name d : String} {type : Ty}
    (hget : schema.get? name = some (.alias d type)) : type.records ⊆ schema.records := by
  intro fields hmem
  exact List.mem_flatMap.2 ⟨_, mem_defs_of_get? hget, hmem⟩

theorem Schema.records_subset_of_custom {schema : Schema} {name d : String} {ctors : List Ctor}
    (hget : schema.get? name = some (.custom d ctors)) {ctor : Ctor} (hctor : ctor ∈ ctors)
    {type : Ty} (htype : type ∈ ctor.arguments) : type.records ⊆ schema.records := by
  intro fields hmem
  refine List.mem_flatMap.2 ⟨_, mem_defs_of_get? hget, ?_⟩
  exact List.mem_flatMap.2 ⟨ctor, hctor, List.mem_flatMap.2 ⟨type, htype, hmem⟩⟩

/-- No record type is without fields. -/
def Ty.HasFields (type : Ty) : Prop := ∀ fields ∈ type.records, fields ≠ []

/-- No record type in the definitions of a schema is without fields. -/
def Schema.HasFields (schema : Schema) : Prop := ∀ fields ∈ schema.records, fields ≠ []

instance (type : Ty) : Decidable type.HasFields :=
  inferInstanceAs (Decidable (∀ fields ∈ type.records, fields ≠ []))

instance (schema : Schema) : Decidable schema.HasFields :=
  inferInstanceAs (Decidable (∀ fields ∈ schema.records, fields ≠ []))

/-! ## Names as Elm has them -/

/-- May the character stand in a name, after its first? -/
def isNameChar (c : Char) : Bool := c.isAlphanum || c == '_' || 128 ≤ c.toNat

/-- Is it a name whose first character is such a letter?  Of letters beyond ASCII, all are let
through. -/
def isNameWith (first : Char → Bool) (name : String) : Bool :=
  match name.toList with
  | [] => false
  | c :: cs => (first c || 128 ≤ c.toNat) && cs.all isNameChar

/-- Is it a name of a type or a constructor? -/
def isUpperName : String → Bool := isNameWith Char.isUpper

/-- Is it a name of a field? -/
def isLowerName : String → Bool := isNameWith Char.isLower

/-- All fields in the type have names that Elm allows for them. -/
def Ty.LowerFields (type : Ty) : Prop :=
  ∀ fields ∈ type.records, ∀ field ∈ fields, isLowerName field.1

instance (type : Ty) : Decidable type.LowerFields :=
  inferInstanceAs (Decidable (∀ fields ∈ type.records, ∀ field ∈ fields,
    isLowerName field.1 = true))

/-- The constructors that a definition introduces.  The alias of a record type introduces one with
its own name. -/
def TypeDef.constructors : TypeDef → List String
  | .alias name (.record _) => [name]
  | .alias _ _ => []
  | .custom _ ctors => ctors.map Ctor.name

/-- The constructors that the definitions of a schema introduce. -/
def Schema.constructors (schema : Schema) : List String :=
  schema.defs.flatMap TypeDef.constructors

/-- All types, constructors and fields have names that Elm allows for them. -/
structure Schema.Identifiers (schema : Schema) : Prop where
  types : ∀ name ∈ schema.names, isUpperName name
  constructors : ∀ name ∈ schema.constructors, isUpperName name
  fields : ∀ fields ∈ schema.records, ∀ field ∈ fields, isLowerName field.1

theorem Schema.Identifiers.reference {schema : Schema} (h : schema.Identifiers) {name : String}
    (hname : schema.contains name) : isUpperName name := by
  obtain ⟨d, hget⟩ := Option.isSome_iff_exists.1 hname
  exact h.types name (mem_names_of_get? hget)

/-! ## A recursive schema -/

/-- Trees with a size at every node. -/
def treeSchema : Schema :=
  ⟨[.custom "Tree" [⟨"Leaf", []⟩,
    ⟨"Node", [.named "Tree", .record [("size", .int)], .named "Tree"]⟩]]⟩

end ElmWire
