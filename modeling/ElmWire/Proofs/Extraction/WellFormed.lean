import ElmWire.Extraction.Schema
import ElmWire.Proofs.Extraction.Denotation
import ElmWire.Proofs.Schema
import Mathlib.Data.List.Nodup

/-!
# The modules that are schemas

`Module.toSchema` looks at a module several times: at its header, at each declaration by itself, at
the names of all declarations, and at the references of those declarations that could be read.  The
last two look at different lists, what was written and what was read from it.

`Module.WellFormed` says what a schema module is in terms of what was written alone, and
`Module.toSchema_iff_wellFormed` says that **exactly these modules are accepted**.  That nothing
slips through between the lists is the matter of `definitions`: where no declaration has failed,
what was read stands for what was written, one definition for each declaration
(`forall₂_definitions`).

Each check has a lemma that says when it finds nothing: `Module.headerError?_eq_none_iff`,
`definitionErrors_eq_nil_iff`, `nameErrors_eq_nil_iff`, `undeclared_eq_nil_iff`.
-/

set_option autoImplicit false
namespace ElmWire.Source

open Extraction

/-! ## Well-formed modules -/

/-- A declaration that can be part of a schema as far as itself goes: a type without parameters, all
of whose type terms stand for a type. -/
def Declaration.Readable : Declaration → Prop
  | .alias _ parameters written => parameters = [] ∧ ∃ type, written.toTy = .ok type
  | .custom _ parameters constructors => parameters = [] ∧
    ∀ constructor ∈ constructors, ∀ argument ∈ constructor.arguments,
      ∃ type, argument.toTy = .ok type
  | .value _ | .destructuring | .port _ _ | .operator _ _ => False

/-- A module that is a schema. -/
structure Module.WellFormed (m : Module) : Prop where
  plain : m.kind = .normal
  exposesAll : m.exposing = .all
  noImports : m.imports = []
  readable : ∀ d ∈ m.declarations, d.Readable
  distinct : (declaredNames m.declarations).Nodup
  unreserved : ∀ name ∈ declaredNames m.declarations, name ∉ reservedNames
  closed : ∀ d ∈ m.declarations, ∀ name, d.Refers name → name ∈ declaredNames m.declarations
  outbound : outboundMessage ∈ declaredNames m.declarations
  inbound : inboundMessage ∈ declaredNames m.declarations

theorem Constructor.exists_denotes_iff {constructor : Constructor} :
    (∃ ctor, constructor.Denotes ctor) ↔
      ∀ argument ∈ constructor.arguments, ∃ type, argument.Denotes type := by
  rw [← exists_forall₂_iff]
  constructor
  · rintro ⟨ctor, h⟩
    exact ⟨ctor.arguments, h.arguments⟩
  · rintro ⟨types, h⟩
    exact ⟨⟨constructor.name, types⟩, rfl, h⟩

theorem Declaration.readable_iff {declaration : Declaration} :
    declaration.Readable ↔ ∃ d, declaration.Denotes d := by
  cases declaration with
  | «alias» name parameters written =>
    simp [Readable, denotes_alias_iff, TypeTerm.toTy_eq_ok_iff]
  | custom name parameters constructors =>
    simp [Readable, denotes_custom_iff, TypeTerm.toTy_eq_ok_iff, exists_forall₂_iff,
      Constructor.exists_denotes_iff]
  | value name | destructuring | port name written | operator symbol function =>
    simp only [Readable, false_iff]
    rintro ⟨d, ⟨⟩⟩

/-! ## What each check finds -/

theorem Module.headerError?_eq_none_iff {m : Module} :
    m.headerError? = none ↔ m.kind = .normal ∧ m.exposing = .all ∧ m.imports = [] := by
  rw [headerError?]
  cases m.kind with
  | port | effect => simp
  | normal => by_cases hexposing : m.exposing = .all <;> simp [hexposing]

theorem definitionErrors_eq_nil_iff {source : List Declaration} :
    definitionErrors source = [] ↔ ∀ d ∈ source, d.Readable := by
  rw [definitionErrors, List.filterMap_eq_nil_iff]
  refine forall₂_congr fun declaration _ => ?_
  rw [Declaration.readable_iff]
  simp only [← Declaration.toDef_eq_ok_iff]
  cases declaration.toDef <;> simp

/-- **Where no declaration has failed, the definitions are those of the declarations**, one for each
and in their order. -/
theorem forall₂_definitions {source : List Declaration} (h : ∀ d ∈ source, d.Readable) :
    List.Forall₂ Declaration.Denotes source (definitions source) := by
  induction source with
  | nil => exact .nil
  | cons declaration rest ih =>
    obtain ⟨hfirst, hrest⟩ := List.forall_mem_cons.1 h
    obtain ⟨d, hd⟩ := Declaration.readable_iff.1 hfirst
    have hdefs : definitions (declaration :: rest) = d :: definitions rest := by
      rw [definitions, List.filterMap_cons, Declaration.toDef_eq_ok_iff.2 hd]
      rfl
    rw [hdefs]
    exact .cons hd (ih hrest)

/-- The names of the definitions are those that were declared. -/
theorem map_name_of_denotes {source : List Declaration} {defs : List TypeDef}
    (h : List.Forall₂ Declaration.Denotes source defs) :
    defs.map TypeDef.name = declaredNames source := by
  induction h with
  | nil => rfl
  | cons hfirst _ ih =>
    rw [declaredNames, List.filterMap_cons, hfirst.typeName?, List.map_cons, ih]
    rfl

theorem nameErrors_eq_nil_iff {earlier names : List String} :
    nameErrors earlier names = [] ↔
      names.Nodup ∧ (∀ name ∈ names, name ∉ earlier) ∧ ∀ name ∈ names, name ∉ reservedNames := by
  induction names generalizing earlier with
  | nil => simp [nameErrors]
  | cons name rest ih =>
    have hfound : (if earlier.contains name then [DeclarationError.duplicate name]
        else if reservedNames.contains name then [.reserved name] else []) = [] ↔
          name ∉ earlier ∧ name ∉ reservedNames := by
      by_cases hearlier : name ∈ earlier <;> by_cases hreserved : name ∈ reservedNames <;>
        simp [hearlier, hreserved]
    have hrest : (∀ other ∈ rest, other ∉ name :: earlier) ↔
        name ∉ rest ∧ ∀ other ∈ rest, other ∉ earlier := by
      simp only [List.mem_cons, not_or, forall_and]
      refine and_congr_left fun _ => ⟨fun h hmem => h name hmem rfl, ?_⟩
      exact fun h _ hmem heq => h (heq ▸ hmem)
    rw [nameErrors, List.append_eq_nil_iff, ih, hfound, hrest, List.nodup_cons,
      List.forall_mem_cons, List.forall_mem_cons]
    tauto

theorem undeclared_eq_nil_iff {declared seen names : List String} :
    undeclared declared seen names = [] ↔ ∀ name ∈ names, name ∈ declared ∨ name ∈ seen := by
  induction names generalizing seen with
  | nil => simp [undeclared]
  | cons name rest ih =>
    rw [undeclared]
    split
    · next h =>
      rw [ih]
      simp at h
      simp [h]
    · next h =>
      simp at h
      simp [h]

theorem referenceErrors_eq_nil_iff {declared : List String} {d : TypeDef} :
    referenceErrors declared d = [] ↔ ∀ name ∈ d.references, name ∈ declared := by
  simp [referenceErrors, undeclared_eq_nil_iff]

/-- The names and the references are in order, said of what was written. -/
theorem check_eq_nil_iff {source : List Declaration} {defs : List TypeDef}
    (h : List.Forall₂ Declaration.Denotes source defs) :
    check source defs = [] ↔
      (declaredNames source).Nodup ∧ (∀ name ∈ declaredNames source, name ∉ reservedNames) ∧
        ∀ d ∈ source, ∀ name, d.Refers name → name ∈ declaredNames source := by
  have hreferences : (∀ d ∈ defs, ∀ name ∈ d.references, name ∈ declaredNames source) ↔
      ∀ d ∈ source, ∀ name, d.Refers name → name ∈ declaredNames source := by
    refine forall_mem_iff_of_forall₂ (h.flip.imp fun d declaration hd => ?_)
    simp only [hd.mem_references_iff]
  simp [check, nameErrors_eq_nil_iff, referenceErrors_eq_nil_iff, hreferences, and_assoc]

/-! ## Exactly the well-formed modules are accepted -/

theorem Module.toSchema_eq_ok_iff {m : Module} {schema : Schema} :
    m.toSchema = .ok schema ↔
      m.headerError? = none ∧ m.declarationErrors = [] ∧
        (Schema.mk (definitions m.declarations)).contains outboundMessage ∧
        (Schema.mk (definitions m.declarations)).contains inboundMessage ∧
        schema = ⟨definitions m.declarations⟩ := by
  rw [toSchema]
  cases m.headerError? with
  | some error => simp
  | none =>
    by_cases herrors : m.declarationErrors = []
    · by_cases hout : (Schema.mk (definitions m.declarations)).contains outboundMessage
      · by_cases hin : (Schema.mk (definitions m.declarations)).contains inboundMessage
        · simp [herrors, hout, hin, eq_comm]
        · simp [herrors, hout, hin]
      · simp [herrors, hout]
    · simp [herrors]

/-- A definition is contained exactly when its name was declared. -/
theorem contains_iff_mem_declaredNames {source : List Declaration} {defs : List TypeDef}
    (h : List.Forall₂ Declaration.Denotes source defs) {name : String} :
    (Schema.mk defs).contains name ↔ name ∈ declaredNames source := by
  rw [Schema.contains_iff, ← map_name_of_denotes h, List.mem_map]

theorem Module.wellFormed_iff {m : Module} :
    m.WellFormed ↔ m.headerError? = none ∧ m.declarationErrors = [] ∧
      (Schema.mk (definitions m.declarations)).contains outboundMessage ∧
      (Schema.mk (definitions m.declarations)).contains inboundMessage := by
  rw [headerError?_eq_none_iff, declarationErrors, List.append_eq_nil_iff,
    definitionErrors_eq_nil_iff]
  constructor
  · intro h
    have hdefs := forall₂_definitions h.readable
    refine ⟨⟨h.plain, h.exposesAll, h.noImports⟩, ⟨h.readable, ?_⟩, ?_, ?_⟩
    · exact (check_eq_nil_iff hdefs).2 ⟨h.distinct, h.unreserved, h.closed⟩
    · exact (contains_iff_mem_declaredNames hdefs).2 h.outbound
    · exact (contains_iff_mem_declaredNames hdefs).2 h.inbound
  · rintro ⟨⟨hplain, hexposing, himports⟩, ⟨hreadable, hcheck⟩, hout, hin⟩
    have hdefs := forall₂_definitions hreadable
    obtain ⟨hdistinct, hunreserved, hclosed⟩ := (check_eq_nil_iff hdefs).1 hcheck
    exact ⟨hplain, hexposing, himports, hreadable, hdistinct, hunreserved, hclosed,
      (contains_iff_mem_declaredNames hdefs).1 hout, (contains_iff_mem_declaredNames hdefs).1 hin⟩

/-- The schema of a module defines different names, and none of them is reserved. -/
theorem Module.names_of_toSchema {m : Module} {schema : Schema} (h : m.toSchema = .ok schema) :
    schema.names.Nodup ∧ ∀ name ∈ schema.names, name ∉ reservedNames := by
  obtain ⟨hheader, herrors, hout, hin, rfl⟩ := toSchema_eq_ok_iff.1 h
  have hm : m.WellFormed := wellFormed_iff.2 ⟨hheader, herrors, hout, hin⟩
  rw [Schema.names, map_name_of_denotes (forall₂_definitions hm.readable)]
  exact ⟨hm.distinct, hm.unreserved⟩

/-- The schema of a module is closed. -/
theorem Module.closed_of_toSchema {m : Module} {schema : Schema} (h : m.toSchema = .ok schema) :
    schema.Closed := by
  obtain ⟨-, herrors, -, -, rfl⟩ := toSchema_eq_ok_iff.1 h
  rw [declarationErrors, List.append_eq_nil_iff, check, List.append_eq_nil_iff,
    List.flatMap_eq_nil_iff, definitionErrors_eq_nil_iff] at herrors
  obtain ⟨hreadable, -, hreferences⟩ := herrors
  intro d hd name hname
  rw [contains_iff_mem_declaredNames (forall₂_definitions hreadable)]
  exact referenceErrors_eq_nil_iff.1 (hreferences d hd) name hname

/-- Where no name is defined twice, looking a definition up by its name finds it. -/
theorem get?_name_of_mem {schema : Schema} (hnodup : (schema.defs.map TypeDef.name).Nodup)
    {d : TypeDef} (hmem : d ∈ schema.defs) : schema.get? d.name = some d := by
  obtain ⟨found, hfound⟩ := Option.isSome_iff_exists.1
    (Schema.contains_iff.2 ⟨d, hmem, rfl⟩ : (schema.get? d.name).isSome)
  rw [hfound, List.inj_on_of_nodup_map hnodup (Schema.mem_defs_of_get? hfound) hmem
    (Schema.name_of_get? hfound)]

/-- **Exactly the well-formed modules are accepted.**  The schema of such a module has one
definition for each declaration, in the same order; it stands for the declaration, with its name and
with all names of constructors and fields; and looking up its name finds it. -/
theorem Module.toSchema_iff_wellFormed (m : Module) :
    ((∃ schema, m.toSchema = .ok schema) ↔ m.WellFormed) ∧
    ∀ schema, m.toSchema = .ok schema →
      List.Forall₂ Declaration.Denotes m.declarations schema.defs ∧
        ∀ d ∈ schema.defs, schema.get? d.name = some d := by
  refine ⟨?_, fun schema h => ?_⟩
  · simp only [toSchema_eq_ok_iff, wellFormed_iff, exists_and_left, exists_eq, and_true]
  · obtain ⟨hheader, herrors, hout, hin, rfl⟩ := toSchema_eq_ok_iff.1 h
    have hm : m.WellFormed := wellFormed_iff.2 ⟨hheader, herrors, hout, hin⟩
    have hdefs := forall₂_definitions hm.readable
    refine ⟨hdefs, fun d hmem => get?_name_of_mem ?_ hmem⟩
    rw [map_name_of_denotes hdefs]
    exact hm.distinct

/-- A module of messages about threads of messages, which are recursive. -/
def threadsModule : Module where
  name := "Threads"
  kind := .normal
  exposing := .all
  imports := []
  declarations :=
    [.custom "OutboundMessage" []
        [⟨"Ask", []⟩, ⟨"Reply", [.named "Thread" [], .named "String" []]⟩],
      .alias "InboundMessage" [] (.record [("threads", .named "List" [.named "Thread" []])]),
      .custom "Thread" [] [⟨"Thread", [.named "String" [], .named "List" [.named "Thread" []]]⟩]]

/-- The schema of `threadsModule`. -/
def threadsSchema : Schema :=
  ⟨[.custom "OutboundMessage" [⟨"Ask", []⟩, ⟨"Reply", [.named "Thread", .string]⟩],
    .alias "InboundMessage" (.record [("threads", .list (.named "Thread"))]),
    .custom "Thread" [⟨"Thread", [.string, .list (.named "Thread")]⟩]]⟩

theorem toSchema_threads :
    threadsModule.toSchema = .ok threadsSchema ∧ threadsModule.WellFormed ∧
      List.Forall₂ Declaration.Denotes threadsModule.declarations threadsSchema.defs ∧
      ∀ d ∈ threadsSchema.defs, threadsSchema.get? d.name = some d := by
  have hschema : threadsModule.toSchema = .ok threadsSchema := rfl
  have hall := Module.toSchema_iff_wellFormed threadsModule
  exact ⟨hschema, hall.1.1 ⟨_, hschema⟩, hall.2 _ hschema⟩

end ElmWire.Source
