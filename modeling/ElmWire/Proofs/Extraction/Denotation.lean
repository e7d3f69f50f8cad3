import ElmWire.Extraction.Types
import ElmWire.Proofs.Failing

/-!
# What is written and what it stands for

A schema is read off a module one declaration at a time, from left to right, and reading stops at
the first part that stands for nothing.  This file says what is found without saying how.

* `TypeTerm.Denotes written type` — the type term stands for the type.  There is one rule for each
  form that can be sent, so a term without a rule stands for nothing.
* `TypeTerm.Refers written name` — the name of another definition occurs in the type term.
* `Declaration.Denotes`, `Declaration.Refers` — the same for declarations.

**Reading finds exactly what is denoted**: `TypeTerm.toTy_eq_ok_iff`, `Declaration.toDef_eq_ok_iff`.
And what is read refers to the names that were written: `TypeTerm.Denotes.mem_references_iff`,
`Declaration.Denotes.mem_references_iff`.
-/

set_option autoImplicit false
namespace ElmWire.Source

open Extraction

/-! ## Type terms -/

/-- The names that stand for a built-in type when they have no arguments. -/
def primitiveNames : List String := ["Bool", "Int", "Float", "Char", "String"]

/-- A type term stands for a type. -/
inductive TypeTerm.Denotes : TypeTerm → Ty → Prop
  | unit : Denotes .unit .unit
  | bool : Denotes (.named "Bool" []) .bool
  | int : Denotes (.named "Int" []) .int
  | float : Denotes (.named "Float" []) .float
  | char : Denotes (.named "Char" []) .char
  | string : Denotes (.named "String" []) .string
  | reference {name : String} (h : name ∉ primitiveNames) : Denotes (.named name []) (.named name)
  | list {item : TypeTerm} {type : Ty} (h : Denotes item type) :
      Denotes (.named "List" [item]) (.list type)
  | maybe {item : TypeTerm} {type : Ty} (h : Denotes item type) :
      Denotes (.named "Maybe" [item]) (.maybe type)
  | result {error ok : TypeTerm} {errorType okType : Ty} (herror : Denotes error errorType)
      (hok : Denotes ok okType) : Denotes (.named "Result" [error, ok]) (.result errorType okType)
  | pair {a b : TypeTerm} {first second : Ty} (ha : Denotes a first) (hb : Denotes b second) :
      Denotes (.tuple [a, b]) (.pair first second)
  | triple {a b c : TypeTerm} {first second third : Ty} (ha : Denotes a first)
      (hb : Denotes b second) (hc : Denotes c third) :
      Denotes (.tuple [a, b, c]) (.triple first second third)
  /-- The fields keep their names and their order. -/
  | record {fields : List (String × TypeTerm × Ty)}
      (h : ∀ field ∈ fields, Denotes field.2.1 field.2.2) :
      Denotes (.record (fields.map fun field => (field.1, field.2.1)))
        (.record (fields.map fun field => (field.1, field.2.2)))

/-- The name of a definition occurs in a type term. -/
inductive TypeTerm.Refers : TypeTerm → String → Prop
  | here {name : String} (h : name ∉ primitiveNames) : Refers (.named name []) name
  | argument {name other : String} {arguments : List TypeTerm} {argument : TypeTerm}
      (hmem : argument ∈ arguments) (h : Refers argument other) :
      Refers (.named name arguments) other
  | item {other : String} {items : List TypeTerm} {item : TypeTerm} (hmem : item ∈ items)
      (h : Refers item other) : Refers (.tuple items) other
  | field {other : String} {fields : List (String × TypeTerm)} {field : String × TypeTerm}
      (hmem : field ∈ fields) (h : Refers field.2 other) : Refers (.record fields) other

theorem tyOfName_of_not_mem {name : String} (h : name ∉ primitiveNames) :
    tyOfName name = .named name := by
  unfold tyOfName
  split
  case h_6 => rfl
  all_goals exact absurd (by decide) h

theorem denotes_tyOfName (name : String) :
    (TypeTerm.named name []).Denotes (tyOfName name) := by
  by_cases h : name ∈ primitiveNames
  · simp only [primitiveNames, List.mem_cons, List.not_mem_nil, or_false] at h
    rcases h with rfl | rfl | rfl | rfl | rfl
    · exact .bool
    · exact .int
    · exact .float
    · exact .char
    · exact .string
  · rw [tyOfName_of_not_mem h]
    exact .reference h

mutual

theorem TypeTerm.denotes_of_toTy : ∀ {written : TypeTerm} {type : Ty},
    written.toTy = .ok type → written.Denotes type
  | .unit, type, h => by
    rw [TypeTerm.toTy] at h
    cases h
    exact .unit
  | .named name [], type, h => by
    rw [TypeTerm.toTy] at h
    cases h
    exact denotes_tyOfName name
  | .named name [item], type, h => by
    rw [TypeTerm.toTy] at h
    split at h
    · next hname =>
      obtain ⟨itemType, hitem, h⟩ := bind_eq_ok_iff.1 h
      cases hname
      cases h
      exact .list (TypeTerm.denotes_of_toTy hitem)
    · split at h
      · next hname =>
        obtain ⟨itemType, hitem, h⟩ := bind_eq_ok_iff.1 h
        cases hname
        cases h
        exact .maybe (TypeTerm.denotes_of_toTy hitem)
      · cases h
  | .named name [error, ok], type, h => by
    rw [TypeTerm.toTy] at h
    split at h
    · next hname =>
      obtain ⟨errorType, herror, h⟩ := bind_eq_ok_iff.1 h
      obtain ⟨okType, hok, h⟩ := bind_eq_ok_iff.1 h
      cases hname
      cases h
      exact .result (TypeTerm.denotes_of_toTy herror) (TypeTerm.denotes_of_toTy hok)
    · cases h
  | .named name (_ :: _ :: _ :: _), type, h => by
    rw [TypeTerm.toTy] at h
    · cases h
    all_goals simp
  | .tuple [a, b], type, h => by
    rw [TypeTerm.toTy] at h
    obtain ⟨first, ha, h⟩ := bind_eq_ok_iff.1 h
    obtain ⟨second, hb, h⟩ := bind_eq_ok_iff.1 h
    cases h
    exact .pair (TypeTerm.denotes_of_toTy ha) (TypeTerm.denotes_of_toTy hb)
  | .tuple [a, b, c], type, h => by
    rw [TypeTerm.toTy] at h
    obtain ⟨first, ha, h⟩ := bind_eq_ok_iff.1 h
    obtain ⟨second, hb, h⟩ := bind_eq_ok_iff.1 h
    obtain ⟨third, hc, h⟩ := bind_eq_ok_iff.1 h
    cases h
    exact .triple (TypeTerm.denotes_of_toTy ha) (TypeTerm.denotes_of_toTy hb)
      (TypeTerm.denotes_of_toTy hc)
  | .tuple [], type, h | .tuple [_], type, h | .tuple (_ :: _ :: _ :: _ :: _), type, h => by
    rw [TypeTerm.toTy] at h
    · cases h
    all_goals simp
  | .record fields, type, h => by
    rw [TypeTerm.toTy] at h
    obtain ⟨types, htypes, h⟩ := bind_eq_ok_iff.1 h
    obtain ⟨slots, rfl, rfl, hslots⟩ := denotes_of_fieldTys htypes
    cases h
    exact .record hslots
  | .var _, type, h | .extension _ _, type, h | .function _ _, type, h => by
    rw [TypeTerm.toTy] at h
    cases h

theorem denotes_of_fieldTys : ∀ {fields : List (String × TypeTerm)} {types : List (String × Ty)},
    fieldTys fields = .ok types →
      ∃ slots : List (String × TypeTerm × Ty),
        fields = slots.map (fun slot => (slot.1, slot.2.1)) ∧
        types = slots.map (fun slot => (slot.1, slot.2.2)) ∧
        ∀ slot ∈ slots, slot.2.1.Denotes slot.2.2
  | [], types, h => by
    rw [fieldTys] at h
    cases h
    exact ⟨[], rfl, rfl, by simp⟩
  | (name, written) :: rest, types, h => by
    rw [fieldTys] at h
    obtain ⟨type, htype, h⟩ := bind_eq_ok_iff.1 h
    obtain ⟨types, htypes, h⟩ := bind_eq_ok_iff.1 h
    obtain ⟨slots, rfl, rfl, hslots⟩ := denotes_of_fieldTys htypes
    cases h
    refine ⟨(name, written, type) :: slots, rfl, rfl, ?_⟩
    exact List.forall_mem_cons.2 ⟨TypeTerm.denotes_of_toTy htype, hslots⟩

end

theorem fieldTys_map_eq_ok {slots : List (String × TypeTerm × Ty)}
    (h : ∀ slot ∈ slots, slot.2.1.toTy = .ok slot.2.2) :
    fieldTys (slots.map fun slot => (slot.1, slot.2.1)) =
      .ok (slots.map fun slot => (slot.1, slot.2.2)) := by
  induction slots with
  | nil => rfl
  | cons slot rest ih =>
    obtain ⟨hslot, hrest⟩ := List.forall_mem_cons.1 h
    rw [List.map_cons, List.map_cons, fieldTys, hslot]
    exact bind_eq_ok_iff.2 ⟨_, rfl, bind_eq_ok_iff.2 ⟨_, ih hrest, rfl⟩⟩

theorem TypeTerm.Denotes.toTy_eq {written : TypeTerm} {type : Ty} (h : written.Denotes type) :
    written.toTy = .ok type := by
  induction h with
  | unit | bool | int | float | char | string => rfl
  | reference hname => rw [toTy, tyOfName_of_not_mem hname]
  | list _ ih | maybe _ ih =>
    rw [toTy, ih]
    rfl
  | result _ _ iherror ihok =>
    rw [toTy, iherror, ihok]
    rfl
  | pair _ _ iha ihb =>
    rw [toTy, iha, ihb]
    rfl
  | triple _ _ _ iha ihb ihc =>
    rw [toTy, iha, ihb, ihc]
    rfl
  | record _ ih =>
    rw [toTy, fieldTys_map_eq_ok ih]
    rfl

/-- **Reading a type term finds exactly what it stands for.** -/
theorem TypeTerm.toTy_eq_ok_iff {written : TypeTerm} {type : Ty} :
    written.toTy = .ok type ↔ written.Denotes type :=
  ⟨denotes_of_toTy, Denotes.toTy_eq⟩

/-! ## References in type terms -/

@[simp] theorem TypeTerm.refers_named_nil {name other : String} :
    (TypeTerm.named name []).Refers other ↔ name ∉ primitiveNames ∧ other = name := by
  constructor
  · intro h
    cases h with
    | here h => exact ⟨h, rfl⟩
    | argument hmem _ => cases hmem
  · rintro ⟨h, rfl⟩
    exact .here h

@[simp] theorem TypeTerm.refers_named_cons {name other : String} {first : TypeTerm}
    {rest : List TypeTerm} : (TypeTerm.named name (first :: rest)).Refers other ↔
      ∃ argument ∈ first :: rest, argument.Refers other := by
  constructor
  · intro h
    cases h with
    | argument hmem h => exact ⟨_, hmem, h⟩
  · rintro ⟨argument, hmem, h⟩
    exact .argument hmem h

@[simp] theorem TypeTerm.refers_tuple {other : String} {items : List TypeTerm} :
    (TypeTerm.tuple items).Refers other ↔ ∃ item ∈ items, item.Refers other := by
  constructor
  · intro h
    cases h with
    | item hmem h => exact ⟨_, hmem, h⟩
  · rintro ⟨item, hmem, h⟩
    exact .item hmem h

@[simp] theorem TypeTerm.refers_record {other : String} {fields : List (String × TypeTerm)} :
    (TypeTerm.record fields).Refers other ↔ ∃ field ∈ fields, field.2.Refers other := by
  constructor
  · intro h
    cases h with
    | field hmem h => exact ⟨_, hmem, h⟩
  · rintro ⟨field, hmem, h⟩
    exact .field hmem h

@[simp] theorem TypeTerm.not_refers_unit {other : String} : ¬ TypeTerm.unit.Refers other := by
  rintro ⟨⟩

theorem mem_fieldReferences_iff {fields : List (String × Ty)} {name : String} :
    name ∈ fieldReferences fields ↔ ∃ field ∈ fields, name ∈ field.2.references := by
  induction fields with
  | nil => simp [fieldReferences]
  | cons field rest ih => simp [fieldReferences, ih]

/-- What a type term stands for refers to the names that occur in the term. -/
theorem TypeTerm.Denotes.mem_references_iff {written : TypeTerm} {type : Ty}
    (h : written.Denotes type) {name : String} :
    name ∈ type.references ↔ written.Refers name := by
  induction h with
  | unit => simp [Ty.references]
  | bool | int | float | char | string => simp [Ty.references, primitiveNames]
  | reference hname => simp [Ty.references, hname]
  | list _ ih | maybe _ ih => simp [Ty.references, ih]
  | result _ _ iha ihb | pair _ _ iha ihb => simp [Ty.references, iha, ihb]
  | triple _ _ _ iha ihb ihc => simp [Ty.references, iha, ihb, ihc]
  | record _ ih =>
    rw [Ty.references, mem_fieldReferences_iff, refers_record]
    refine exists_mem_iff_of_forall₂ ?_
    rw [List.forall₂_map_left_iff, List.forall₂_map_right_iff, List.forall₂_same]
    exact ih

/-! ## Declarations -/

/-- A source constructor stands for a constructor: of the same name, and with arguments in the same
order. -/
structure Constructor.Denotes (constructor : Constructor) (ctor : Ctor) : Prop where
  name : ctor.name = constructor.name
  arguments : List.Forall₂ TypeTerm.Denotes constructor.arguments ctor.arguments

/-- A declaration stands for a definition of the same name.  It may have no type parameters. -/
inductive Declaration.Denotes : Declaration → TypeDef → Prop
  | alias {name : String} {written : TypeTerm} {type : Ty} (h : written.Denotes type) :
      Denotes (.alias name [] written) (.alias name type)
  | custom {name : String} {constructors : List Constructor} {ctors : List Ctor}
      (h : List.Forall₂ Constructor.Denotes constructors ctors) :
      Denotes (.custom name [] constructors) (.custom name ctors)

/-- The name of a definition occurs in the body of a declaration. -/
def Declaration.Refers : Declaration → String → Prop
  | .alias _ _ written, name => written.Refers name
  | .custom _ _ constructors, name =>
    ∃ constructor ∈ constructors, ∃ argument ∈ constructor.arguments, argument.Refers name
  | .value _, _ | .destructuring, _ | .port _ _, _ | .operator _ _, _ => False

theorem Constructor.toCtor_eq_ok_iff {constructor : Constructor} {ctor : Ctor} :
    constructor.toCtor = .ok ctor ↔ constructor.Denotes ctor := by
  rw [toCtor, map_eq_ok_iff]
  simp only [mapM_eq_ok_iff, TypeTerm.toTy_eq_ok_iff]
  constructor
  · rintro ⟨types, htypes, rfl⟩
    exact ⟨rfl, htypes⟩
  · rintro ⟨hname, htypes⟩
    exact ⟨ctor.arguments, htypes, by rw [← hname]⟩

theorem mapM_toCtor_eq_ok_iff {constructors : List Constructor} {ctors : List Ctor} :
    constructors.mapM Constructor.toCtor = .ok ctors ↔
      List.Forall₂ Constructor.Denotes constructors ctors := by
  simp only [mapM_eq_ok_iff, Constructor.toCtor_eq_ok_iff]

theorem Declaration.denotes_alias_iff {name : String} {parameters : List String}
    {written : TypeTerm} {d : TypeDef} :
    (Declaration.alias name parameters written).Denotes d ↔
      parameters = [] ∧ ∃ type, written.Denotes type ∧ d = .alias name type := by
  constructor
  · intro h
    cases h with
    | «alias» h => exact ⟨rfl, _, h, rfl⟩
  · rintro ⟨rfl, type, h, rfl⟩
    exact .alias h

theorem Declaration.denotes_custom_iff {name : String} {parameters : List String}
    {constructors : List Constructor} {d : TypeDef} :
    (Declaration.custom name parameters constructors).Denotes d ↔
      parameters = [] ∧ ∃ ctors, List.Forall₂ Constructor.Denotes constructors ctors ∧
        d = .custom name ctors := by
  constructor
  · intro h
    cases h with
    | custom h => exact ⟨rfl, _, h, rfl⟩
  · rintro ⟨rfl, ctors, h, rfl⟩
    exact .custom h

/-- **Reading a declaration finds exactly what it stands for.** -/
theorem Declaration.toDef_eq_ok_iff {declaration : Declaration} {d : TypeDef} :
    declaration.toDef = .ok d ↔ declaration.Denotes d := by
  cases declaration with
  | «alias» name parameters written =>
    rw [denotes_alias_iff, toDef]
    simp only [← TypeTerm.toTy_eq_ok_iff]
    cases parameters with
    | nil => cases written.toTy <;> simp [eq_comm]
    | cons parameter rest => simp
  | custom name parameters constructors =>
    rw [denotes_custom_iff, toDef]
    simp only [← mapM_toCtor_eq_ok_iff]
    cases parameters with
    | nil => cases constructors.mapM Constructor.toCtor <;> simp [eq_comm]
    | cons parameter rest => simp
  | value name | destructuring | port name written | operator symbol function =>
    constructor
    · intro h
      cases h
    · rintro ⟨⟩

theorem Declaration.Denotes.typeName? {declaration : Declaration} {d : TypeDef}
    (h : declaration.Denotes d) : declaration.typeName? = some d.name := by
  cases h <;> rfl

/-- A definition refers to the names that occur in the body of its declaration. -/
theorem Declaration.Denotes.mem_references_iff {declaration : Declaration} {d : TypeDef}
    (h : declaration.Denotes d) {name : String} :
    name ∈ d.references ↔ declaration.Refers name := by
  cases h with
  | «alias» h => exact h.mem_references_iff
  | custom h =>
    simp only [TypeDef.references, List.mem_flatMap]
    refine exists_mem_iff_of_forall₂ (h.flip.imp fun ctor constructor hctor => ?_)
    refine exists_mem_iff_of_forall₂ (hctor.arguments.flip.imp fun type argument htype => ?_)
    exact htype.mem_references_iff

end ElmWire.Source
