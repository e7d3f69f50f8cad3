import ElmWire.Proofs.Elm.Module
import ElmWire.Proofs.Extraction.WellFormed
import ElmWire.Proofs.Wire.Format

/-!
# Members with the same name

Two fields of a record can have the same name, and so can two constructors.  Elm allows neither, and
nothing that is made from a schema is prepared for it: an object has one member for each name, and a
module defines each constructor once.

The schema of a module is not checked for such clashes.  It has them **exactly where the module has
them** (`distinctMembers_iff`), since every record type and every constructor is read as it was
written: `TypeTerm.records` and `Declaration.constructors` say what is written, and
`Module.records_of_toSchema` and `Module.constructors_of_toSchema` that the schema has nothing else,
in the same order.

The constructors of a module are not those of its custom types (`Declaration.variants`) alone.  Elm
makes a constructor of the alias of a record type, too, and it can clash with the others.
-/

set_option autoImplicit false
namespace ElmWire

/-! ## What clashes in a schema -/

/-- The constructors that a custom type introduces. -/
def TypeDef.variants : TypeDef → List String
  | .alias _ _ => []
  | .custom name ctors => (TypeDef.custom name ctors).constructors

/-- The constructors that the custom types of a schema introduce. -/
def Schema.variants (schema : Schema) : List String := schema.defs.flatMap TypeDef.variants

/-- The constructors that a declaration introduces.  The alias of a record type introduces one with
its own name. -/
def Elm.Decl.constructors : Elm.Decl → List String
  | .alias name (.record _) => [name]
  | .custom _ ctors => ctors.map Prod.fst
  | .alias _ _ | .value _ _ _ => []

/-- The constructors that the module for a schema introduces are those of the schema. -/
theorem Schema.constructors_toElm (schema : Schema) :
    schema.toElm.flatMap Elm.Decl.constructors = schema.constructors := by
  have htypes : ∀ d : TypeDef, d.toElm.constructors = d.constructors := by
    intro d
    cases d with
    | «alias» name type => cases type <;> rfl
    | custom name ctors => exact List.map_map
  have hcodecs : ∀ d : TypeDef, (Elm.codecs d).flatMap Elm.Decl.constructors = [] := fun _ => rfl
  simp [toElm, constructors, List.flatMap_map, List.flatMap_assoc, htypes, hcodecs]

/-- Every field of the record type has a member of its own in what is sent for a record, and there
are no other members. -/
def Wire.OwnKeys (schema : Schema) (fields : List (String × Ty)) : Prop :=
  ∀ values json, encode schema (.record fields) (.record values) = .ok json →
    ∃ members, json = .object members ∧ (members.map Prod.fst).Perm (fields.map Prod.fst) ∧
      ∀ field ∈ fields, ∃ value sent, values.lookup field.1 = some value ∧
        encode schema field.2 value = .ok sent ∧ members.lookup field.1 = some sent

/-- Fields with different names do not get in each other's way. -/
theorem Wire.ownKeys_of_nodup (schema : Schema) {fields : List (String × Ty)}
    (h : (fields.map Prod.fst).Nodup) : OwnKeys schema fields := by
  intro values json hencode
  cases encode_eq_ok_iff.1 hencode with
  | @record slots _ hfound hslots =>
    rw [List.map_map] at h ⊢
    have hnodup : ((slots.map fun slot => (slot.1, slot.2.json)).map Prod.fst).Nodup := by
      rw [List.map_map]
      exact h
    refine ⟨_, rfl, ?_, ?_⟩
    · refine (List.perm_ext_iff_of_nodup (Members.ordered_ofList _).nodup_names h).2 fun key => ?_
      rw [Members.mem_names_ofList, List.map_map]
      rfl
    · intro field hfield
      obtain ⟨slot, hslot, rfl⟩ := List.mem_map.1 hfield
      refine ⟨slot.2.value, slot.2.json, hfound slot hslot,
        encode_eq_ok_iff.2 (hslots slot hslot), ?_⟩
      rw [Members.lookup_ofList_of_nodup hnodup]
      exact Members.lookup_eq_some_of_mem hnodup (List.mem_map_of_mem hslot)

namespace Source

/-! ## What clashes in a module -/

mutual

/-- The record types that are written in a type term, each as the names of its fields. -/
def TypeTerm.records : TypeTerm → List (List String)
  | .var _ | .unit => []
  | .named _ terms | .tuple terms => termRecords terms
  | .record fields | .extension _ fields => fields.map Prod.fst :: fieldTermRecords fields
  | .function argument result => argument.records ++ result.records

/-- The record types that are written in several type terms. -/
def termRecords : List TypeTerm → List (List String)
  | [] => []
  | term :: rest => term.records ++ termRecords rest

/-- The record types that are written in the fields of a record. -/
def fieldTermRecords : List (String × TypeTerm) → List (List String)
  | [] => []
  | (_, term) :: rest => term.records ++ fieldTermRecords rest

end

/-- The record types that are written in a declaration. -/
def Declaration.records : Declaration → List (List String)
  | .alias _ _ written | .port _ written => written.records
  | .custom _ _ constructors =>
    constructors.flatMap fun constructor => constructor.arguments.flatMap TypeTerm.records
  | .value _ | .destructuring | .operator _ _ => []

/-- The constructors that a declaration introduces.  The alias of a record type introduces one with
its own name. -/
def Declaration.constructors : Declaration → List String
  | .alias name _ (.record _) => [name]
  | .custom _ _ constructors => constructors.map Constructor.name
  | .alias _ _ _ | .port _ _ | .value _ | .destructuring | .operator _ _ => []

/-- The constructors that a custom type introduces. -/
def Declaration.variants : Declaration → List String
  | .custom name parameters constructors =>
    (Declaration.custom name parameters constructors).constructors
  | .alias _ _ _ | .port _ _ | .value _ | .destructuring | .operator _ _ => []

/-- The record types that are written in a module. -/
def Module.records (m : Module) : List (List String) := m.declarations.flatMap Declaration.records

/-- The constructors that a module introduces. -/
def Module.constructors (m : Module) : List String :=
  m.declarations.flatMap Declaration.constructors

/-- The constructors that the custom types of a module introduce. -/
def Module.variants (m : Module) : List String := m.declarations.flatMap Declaration.variants

/-! ## What is read is what was written -/

theorem map_fieldRecords {slots : List (String × TypeTerm × Ty)}
    (h : ∀ slot ∈ slots, slot.2.2.records.map (List.map Prod.fst) = slot.2.1.records) :
    (fieldRecords (slots.map fun slot => (slot.1, slot.2.2))).map (List.map Prod.fst) =
      fieldTermRecords (slots.map fun slot => (slot.1, slot.2.1)) := by
  induction slots with
  | nil => rfl
  | cons slot rest ih =>
    obtain ⟨hslot, hrest⟩ := List.forall_mem_cons.1 h
    rw [List.map_cons, List.map_cons, fieldRecords, fieldTermRecords, List.map_append, hslot,
      ih hrest]

/-- The record types in a type are those that were written, with the same fields. -/
theorem TypeTerm.Denotes.map_records {written : TypeTerm} {type : Ty} (h : written.Denotes type) :
    type.records.map (List.map Prod.fst) = written.records := by
  induction h with
  | unit | bool | int | float | char | string | reference _ =>
    simp [Ty.records, records, termRecords]
  | list _ ih | maybe _ ih => simp [Ty.records, records, termRecords, ih]
  | result _ _ iha ihb | pair _ _ iha ihb => simp [Ty.records, records, termRecords, iha, ihb]
  | triple _ _ _ iha ihb ihc => simp [Ty.records, records, termRecords, iha, ihb, ihc]
  | record _ ih =>
    rw [Ty.records, records, List.map_cons, map_fieldRecords ih, List.map_map, List.map_map]
    rfl

theorem Declaration.Denotes.map_records {declaration : Declaration} {d : TypeDef}
    (h : declaration.Denotes d) : d.records.map (List.map Prod.fst) = declaration.records := by
  cases h with
  | «alias» h => exact h.map_records
  | custom h =>
    rw [TypeDef.records, records, List.map_flatMap]
    refine flatMap_eq_of_forall₂ (h.flip.imp fun ctor constructor hctor => ?_)
    rw [List.map_flatMap]
    exact flatMap_eq_of_forall₂ (hctor.arguments.flip.imp fun _ _ htype => htype.map_records)

theorem Declaration.Denotes.constructors_eq {declaration : Declaration} {d : TypeDef}
    (h : declaration.Denotes d) : d.constructors = declaration.constructors := by
  cases h with
  | «alias» h => cases h <;> rfl
  | custom h =>
    induction h with
    | nil => rfl
    | cons hfirst _ ih =>
      show _ :: _ = _ :: _
      rw [hfirst.name]
      exact congrArg _ ih

theorem Declaration.Denotes.variants_eq {declaration : Declaration} {d : TypeDef}
    (h : declaration.Denotes d) : d.variants = declaration.variants := by
  have hconstructors := h.constructors_eq
  cases h with
  | «alias» _ => rfl
  | custom _ => exact hconstructors

theorem Module.denotes_of_toSchema {m : Module} {schema : Schema} (h : m.toSchema = .ok schema) :
    List.Forall₂ Declaration.Denotes m.declarations schema.defs := by
  obtain ⟨hheader, herrors, hout, hin, rfl⟩ := toSchema_eq_ok_iff.1 h
  exact forall₂_definitions (wellFormed_iff.2 ⟨hheader, herrors, hout, hin⟩).readable

/-- The record types of a schema are those that were written, in the same order. -/
theorem Module.records_of_toSchema {m : Module} {schema : Schema} (h : m.toSchema = .ok schema) :
    schema.records.map (List.map Prod.fst) = m.records := by
  rw [Schema.records, records, List.map_flatMap]
  exact flatMap_eq_of_forall₂ ((denotes_of_toSchema h).flip.imp fun _ _ hd => hd.map_records)

/-- The constructors of a schema are those that were written, in the same order. -/
theorem Module.constructors_of_toSchema {m : Module} {schema : Schema}
    (h : m.toSchema = .ok schema) : schema.constructors = m.constructors := by
  rw [Schema.constructors, constructors]
  exact flatMap_eq_of_forall₂ ((denotes_of_toSchema h).flip.imp fun _ _ hd => hd.constructors_eq)

theorem Module.variants_of_toSchema {m : Module} {schema : Schema} (h : m.toSchema = .ok schema) :
    schema.variants = m.variants := by
  rw [Schema.variants, variants]
  exact flatMap_eq_of_forall₂ ((denotes_of_toSchema h).flip.imp fun _ _ hd => hd.variants_eq)

/-- **Members of a schema clash exactly where members of its module do.**  The Elm module that is
generated defines each constructor once exactly if no two constructors clash, those of aliases of
record types included.  And where no two fields of a record do, every field has a key of its own in
what is sent. -/
theorem distinctMembers_iff {m : Module} {schema : Schema} (h : m.toSchema = .ok schema) :
    (schema.DistinctFields ↔ ∀ names ∈ m.records, names.Nodup) ∧
    (schema.variants.Nodup ↔ m.variants.Nodup) ∧
    ((∀ name ∈ schema.constructors,
        (schema.toElm.flatMap Elm.Decl.constructors).count name = 1) ↔ m.constructors.Nodup) ∧
    ((∀ names ∈ m.records, names.Nodup) →
      ∀ fields ∈ schema.records, Wire.OwnKeys schema fields) := by
  have hfields : schema.DistinctFields ↔ ∀ names ∈ m.records, names.Nodup := by
    rw [← Module.records_of_toSchema h, List.forall_mem_map, Schema.DistinctFields]
  refine ⟨hfields, ?_, ?_, fun hm fields hmem => ?_⟩
  · rw [Module.variants_of_toSchema h]
  · rw [schema.constructors_toElm, Module.constructors_of_toSchema h,
      List.nodup_iff_count_eq_one]
  · exact Wire.ownKeys_of_nodup schema (hfields.2 hm fields hmem)

/-- In the module of threads nothing clashes. -/
theorem distinctMembers_threads :
    threadsModule.toSchema = .ok threadsSchema ∧
      threadsSchema.DistinctFields ∧ threadsSchema.variants.Nodup ∧
      (threadsSchema.toElm.flatMap Elm.Decl.constructors).count "Reply" = 1 ∧
      (threadsSchema.toElm.flatMap Elm.Decl.constructors).count "InboundMessage" = 1 ∧
      Wire.OwnKeys threadsSchema [("threads", .list (.named "Thread"))] := by
  have hschema : threadsModule.toSchema = .ok threadsSchema := rfl
  have hrecords : ∀ names ∈ threadsModule.records, names.Nodup := by decide
  obtain ⟨hdistinct, hvariants, hconstructors, hkeys⟩ := distinctMembers_iff hschema
  have honce := hconstructors.2 (by decide)
  refine ⟨hschema, hdistinct.2 hrecords, hvariants.2 (by decide), honce "Reply" (by decide),
    honce "InboundMessage" (by decide), hkeys hrecords _ ?_⟩
  simp [Schema.records, threadsSchema, TypeDef.records, Ty.records, fieldRecords]

/-- The constructor of a custom type can clash with that of the alias of a record type. -/
example :
    let schema : Schema := ⟨[.custom "OutboundMessage" [⟨"InboundMessage", [.int]⟩],
      .alias "InboundMessage" (.record [("x", .int)])]⟩
    schema.variants.Nodup ∧
      (schema.toElm.flatMap Elm.Decl.constructors).count "InboundMessage" = 2 := by decide

/-- A module in which two constructors have the same name, and two fields of a record. -/
def clashingModule : Module where
  name := "Clashing"
  kind := .normal
  exposing := .all
  imports := []
  declarations :=
    [.custom "OutboundMessage" [] [⟨"Ping", []⟩, ⟨"Ping", [.named "Int" []]⟩],
      .alias "InboundMessage" [] (.record [("id", .named "Int" []), ("id", .named "Int" [])])]

/-- The schema of `clashingModule`. -/
def clashingSchema : Schema :=
  ⟨[.custom "OutboundMessage" [⟨"Ping", []⟩, ⟨"Ping", [.int]⟩],
    .alias "InboundMessage" (.record [("id", .int), ("id", .int)])]⟩

/-- **A module with clashes is not turned down.**  Its Elm module defines a constructor twice, and
what is sent for a record with two fields has one key. -/
theorem toSchema_clashing :
    clashingModule.toSchema = .ok clashingSchema ∧
      [("id", Ty.int), ("id", Ty.int)] ∈ clashingSchema.records ∧
      ¬ clashingSchema.DistinctFields ∧ ¬ clashingSchema.variants.Nodup ∧
      (clashingSchema.toElm.flatMap Elm.Decl.constructors).count "Ping" = 2 ∧
      Wire.encode clashingSchema (.record [("id", .int), ("id", .int)])
        (.record [("id", .int 7)]) = .ok (.object [("id", .number (.int 7))]) := by
  refine ⟨rfl, ?_, by decide, by decide, by decide, rfl⟩
  simp [Schema.records, clashingSchema, TypeDef.records, Ty.records]

end Source
end ElmWire
