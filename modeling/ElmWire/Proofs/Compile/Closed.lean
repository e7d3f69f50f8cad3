import ElmWire.Compile.Skeleton
import ElmWire.Proofs.Elm.Module
import ElmWire.Proofs.Elm.Scope
import ElmWire.Proofs.Extraction.WellFormed
import ElmWire.Proofs.TypeScript.Scope

/-!
# Generated files are closed

The two generated files put code for a schema next to code that is always the same.  Names could
clash there, or could be used without being defined.  The checks on the declarations of a module
rule it out, and this file says how.

* `ElmClosed` — in the Elm module no codec is defined twice or has the name of something else, and
  the codecs refer only to what there is.
* `TypeScriptClosed` — in the TypeScript file no type is exported twice, and the exported types
  refer only to exported types.

**The schema of every module has both properties** (`generated_files_closed`).  The names of the
toolkit are out of reach for codecs because the definitions that would get them are reserved
(`codecsReserved_definedNames`).
-/

set_option autoImplicit false
namespace ElmWire

open Compile Elm TypeScript

/-! ## The Elm module -/

/-- The names that every generated Elm module defines. -/
def Compile.definedNames : List String :=
  ports.map Prod.fst ++ (messaging ++ toolkit).map Definition.name

theorem codecsReserved_definedNames : CodecsReserved definedNames := by decide

theorem toolkit_subset_definedNames : ∀ name ∈ Toolkit.all, name ∈ definedNames := by decide

/-- The names of the codecs of a schema. -/
def Schema.codecNames (schema : Schema) : List String :=
  (schema.defs.flatMap codecs).map Decl.name

theorem Schema.codecNames_eq (schema : Schema) : schema.codecNames =
    schema.names.flatMap fun name => [encoderName name, decoderName name] := by
  rw [codecNames, names, List.map_flatMap, List.flatMap_map]
  rfl

theorem Schema.mem_codecNames {schema : Schema} {x : String} : x ∈ schema.codecNames ↔
    ∃ name ∈ schema.names, x = encoderName name ∨ x = decoderName name := by
  simp [codecNames_eq]

/-- No two codecs have the same name if no two definitions have. -/
theorem Schema.nodup_codecNames {schema : Schema} (h : schema.names.Nodup) :
    schema.codecNames.Nodup := by
  rw [codecNames_eq, List.nodup_flatMap]
  constructor
  · intro name _
    exact List.nodup_cons.2 ⟨by simpa using encoderName_ne_decoderName name name, by simp⟩
  · refine h.imp fun {first second} hne x hfirst hsecond => ?_
    simp only [List.mem_cons, List.not_mem_nil, or_false] at hfirst hsecond
    rcases hfirst with rfl | rfl <;> rcases hsecond with hx | hx
    · exact hne (encoderName_injective hx)
    · exact encoderName_ne_decoderName _ _ hx
    · exact encoderName_ne_decoderName _ _ hx.symm
    · exact hne (decoderName_injective hx)

/-- The codecs of a schema fit into the Elm module. -/
structure ElmClosed (schema : Schema) : Prop where
  distinct : schema.codecNames.Nodup
  new : ∀ name ∈ schema.codecNames, name ∉ definedNames
  toolkit : ∀ name ∈ Toolkit.all, name ∈ definedNames
  encoders : ∀ d ∈ schema.defs, ∀ x ∈ (encoderBody d).free,
    x ∈ libraryFunctions ∨ x ∈ Toolkit.all ∨ x ∈ schema.codecNames
  decoders : ∀ d ∈ schema.defs, ∀ x ∈ (decoderBody d).free,
    x ∈ libraryFunctions ∨ x ∈ Toolkit.all ∨ x ∈ schema.codecNames ∨ x ∈ d.constructors

theorem elmClosed {schema : Schema} (hnodup : schema.names.Nodup) (hreserved : schema.NonReserved)
    (hclosed : schema.Closed) : ElmClosed schema where
  distinct := schema.nodup_codecNames hnodup
  new := by
    intro x hx hdefined
    obtain ⟨name, hname, rfl | rfl⟩ := Schema.mem_codecNames.1 hx
    · exact hreserved name hname (codecsReserved_definedNames.of_encoderName hdefined)
    · exact hreserved name hname (codecsReserved_definedNames.of_decoderName hdefined)
  toolkit := toolkit_subset_definedNames
  encoders := by
    intro d hd
    refine freeIn_encoderBody (fun name hname => ?_) d fun name hname => ?_
    · rcases List.mem_append.1 hname with h | h
      · exact .inl h
      · exact .inr (.inl h)
    · exact .inr (.inr (Schema.mem_codecNames.2
        ⟨name, Schema.contains_iff_mem_names.1 (hclosed d hd name hname), .inl rfl⟩))
  decoders := by
    intro d hd
    refine freeIn_decoderBody (fun name hname => ?_) d (fun ctor hctor => ?_) fun name hname => ?_
    · rcases List.mem_append.1 hname with h | h
      · exact .inl h
      · exact .inr (.inl h)
    · exact .inr (.inr (.inr hctor))
    · exact .inr (.inr (.inl (Schema.mem_codecNames.2
        ⟨name, Schema.contains_iff_mem_names.1 (hclosed d hd name hname), .inr rfl⟩)))

/-! ## The TypeScript declarations -/

/-- The exported types of a schema fit into the TypeScript file.  What the text of a definition says
is its `TypeDef.reading`; where all names are identifiers it cannot be read in any other way. -/
structure TypeScriptClosed (schema : Schema) : Prop where
  exports : ∀ d ∈ schema.defs, d.reading.name = d.name ∧
    ∃ rest, d.toTypeScript = "export type " ++ d.name ++ " =" ++ rest
  reads : schema.Identifiers →
    ∀ ds, ReadsAll schema.toTypeScript ds ↔ ds = schema.defs.map TypeDef.reading
  generics : ∀ ds, ReadsAll genericTypes ds ↔ ds = genericDeclarations
  distinct : (schema.defs.map fun d => d.reading.name).Nodup
  new : ∀ d ∈ schema.defs, d.reading.name ≠ "Maybe" ∧ d.reading.name ≠ "Result"
  /-- A named type is `Array`, or is exported with as many parameters as it has arguments. -/
  exported : ∀ d ∈ schema.defs, ∀ mention ∈ d.reading.type.mentions,
    mention = ("Array", 1) ∨
      ∃ other ∈ declarations schema, mention = (other.name, other.params.length)

theorem toTypeScript_eq (d : TypeDef) :
    ∃ rest, d.toTypeScript = "export type " ++ d.name ++ " =" ++ rest := by
  cases d with
  | «alias» name type =>
    refine ⟨" " ++ type.toTypeScript ++ ";", ?_⟩
    simp only [TypeDef.toTypeScript, TypeDef.name, String.append_assoc]
    rfl
  | custom name ctors =>
    simp only [TypeDef.toTypeScript, TypeDef.name]
    generalize List.map _ ctors = members
    fun_cases unionType name members with
    | case1 => exact ⟨" never;", by simp only [String.append_assoc]; rfl⟩
    | case2 members hne lines =>
      refine ⟨"\n" ++ (String.intercalate "\n" lines ++ ";"), ?_⟩
      rw [show " =\n" = " =" ++ "\n" from rfl]
      simp only [String.append_assoc]

theorem typeScriptClosed {schema : Schema} (hnodup : schema.names.Nodup)
    (hreserved : schema.NonReserved) (hclosed : schema.Closed) : TypeScriptClosed schema where
  exports d _ := ⟨name_reading d, toTypeScript_eq d⟩
  reads hnames := readsAll_iff (schema.readsAll hnames hclosed)
  generics := readsAll_iff readsAll_genericTypes
  distinct := by
    simp only [name_reading]
    exact hnodup
  new := by
    intro d hd
    rw [name_reading]
    have hname := hreserved d.name (List.mem_map_of_mem hd)
    constructor
    · intro h
      exact hname (by rw [h]; decide)
    · intro h
      exact hname (by rw [h]; decide)
  exported := by
    intro d hd
    have hgenerics : Generics fun mention => mention = ("Array", 1) ∨
        ∃ other ∈ declarations schema, mention = (other.name, other.params.length) :=
      ⟨.inl rfl, .inr ⟨_, List.mem_append_right _ (List.mem_cons_self ..), rfl⟩,
        .inr ⟨_, List.mem_append_right _ (List.mem_cons_of_mem _ (List.mem_cons_self ..)), rfl⟩⟩
    refine mentionsIn_reading hgenerics d fun name hname => .inr ?_
    obtain ⟨other, hother, rfl⟩ := Schema.contains_iff.1 (hclosed d hd name hname)
    refine ⟨other.reading, List.mem_append_left _ (List.mem_map_of_mem hother), ?_⟩
    rw [name_reading, params_reading]
    rfl

/-! ## Both files -/

/-- **The files that are generated for a module are closed.**  The names of the codecs are different
from each other and from everything that the Elm module defines besides; what a codec leaves free is
a function of the JSON library or of the toolkit, another codec, or a constructor of the definition
that it decodes.  The exported types have different names, none of which is that of a generic type,
and refer only to exported types. -/
theorem generated_files_closed {m : Source.Module} {schema : Schema} (h : m.toSchema = .ok schema) :
    ElmClosed schema ∧ TypeScriptClosed schema := by
  obtain ⟨hnodup, hreserved⟩ := Source.Module.names_of_toSchema h
  have hclosed : schema.Closed := Source.Module.closed_of_toSchema h
  exact ⟨elmClosed hnodup hreserved hclosed, typeScriptClosed hnodup hreserved hclosed⟩

/-- The decoder of a record type with threads in it, and what its exported type says. -/
theorem generated_files_closed_threads :
    Source.threadsModule.toSchema = .ok Source.threadsSchema ∧
      ElmClosed Source.threadsSchema ∧
      (decoderBody
        (.alias "InboundMessage" (.record [("threads", .list (.named "Thread"))]))).free =
        ["Json.Decode.succeed", "InboundMessage", "decodeRecordField", "Json.Decode.list",
          "Json.Decode.lazy", "decodeThread"] ∧
      Source.threadsSchema.Identifiers ∧
      ∃ ds, ReadsAll Source.threadsSchema.toTypeScript ds ∧
        ⟨"InboundMessage", [], .object [("threads", .ref "Array" [.ref "Thread" []])]⟩ ∈ ds := by
  have hschema : Source.threadsModule.toSchema = .ok Source.threadsSchema := rfl
  have hnames : Source.threadsSchema.Identifiers := ⟨by decide, by decide, by decide⟩
  obtain ⟨helm, htypes⟩ := generated_files_closed hschema
  refine ⟨hschema, helm, ?_, hnames, _, (htypes.reads hnames _).2 rfl, ?_⟩
  · rfl
  · exact List.mem_cons_of_mem _ (List.mem_cons_self ..)

end ElmWire
