import ElmWire.Proofs.Extraction.WellFormed
import ElmWire.Proofs.Wire.Recursion

/-!
# What a type reaches

The codec meets names in two places: in the type it is given, and in the definitions of names that
it has met before.  `Schema.Reaches` is what it can meet in this way, whatever the message looks
like.

* `Schema.Reaches.of_shape` — going into a part of a message reaches nothing new.  With it, what
  holds of all names that a type reaches holds at every depth of the recursion.
* `Codec.Computes.exists_shape_error` — **an error that the schema is to blame for is that of a type
  that is reached**: where the codec reports an undefined type or a circular alias, such a type
  comes down to no shape.
* `Schema.Reaches.contains` — over a closed schema, every name that is reached has a definition.

The schema of a module is closed, so the codec never reports an undefined type over it.
-/

set_option autoImplicit false
namespace ElmWire

open Wire

/-! ## Names that are reached -/

/-- The type reaches the name: it refers to it, or reaches a definition that does. -/
inductive Schema.Reaches (schema : Schema) (type : Ty) : String → Prop
  | refers {name : String} (h : name ∈ type.references) : Reaches schema type name
  | through {name other : String} {d : TypeDef} (h : Reaches schema type name)
      (hget : schema.get? name = some d) (hmem : other ∈ d.references) : Reaches schema type other

namespace Schema

variable {schema : Schema} {type other : Ty} {name : String}

/-- A type reaches what another does if it reaches what the other refers to. -/
theorem Reaches.trans (h : ∀ name ∈ other.references, schema.Reaches type name)
    (hname : schema.Reaches other name) : schema.Reaches type name := by
  induction hname with
  | refers hmem => exact h _ hmem
  | through _ hget hmem ih => exact .through ih hget hmem

theorem reaches_named (name : String) : schema.Reaches (.named name) name :=
  .refers (by simp [Ty.references])

/-- An alias reaches what its definition does. -/
theorem Reaches.hop {d : String} (hget : schema.get? name = some (.alias d type)) {target : String}
    (h : schema.Reaches type target) : schema.Reaches (.named name) target :=
  h.trans fun _ hmem => .through (reaches_named name) hget hmem

theorem references_subset_of_view {shape : Shape} (hview : type.view = .shape shape)
    (hmem : other ∈ shape.types) : other.references ⊆ type.references := by
  cases type with
  | unit | bool | int | float | char | string => cases hview; simp [Shape.types] at hmem
  | named name => cases hview
  | list item | maybe item =>
    cases hview
    simp only [Shape.types, maybeCtors, List.flatMap_cons, List.flatMap_nil, List.append_nil,
      List.mem_singleton] at hmem
    rw [hmem, Ty.references]
    exact List.Subset.refl _
  | pair first second | result second first =>
    cases hview
    simp only [Shape.types, resultCtors, List.flatMap_cons, List.flatMap_nil, List.append_nil,
      List.singleton_append, List.mem_cons, List.not_mem_nil, or_false] at hmem
    rcases hmem with rfl | rfl <;> simp [Ty.references]
  | triple first second third =>
    cases hview
    simp only [Shape.types, List.mem_cons, List.not_mem_nil, or_false] at hmem
    rcases hmem with rfl | rfl | rfl <;> simp [Ty.references]
  | record fields =>
    cases hview
    obtain ⟨field, hfield, rfl⟩ := List.mem_map.1 hmem
    exact references_subset_fieldReferences hfield

/-- **Going into a part reaches nothing new.** -/
theorem Reaches.of_shape {shape : Shape} (hshape : schema.shape type = .ok shape)
    (hmem : other ∈ shape.types) (h : schema.Reaches other name) : schema.Reaches type name := by
  obtain ⟨hops, hresolves⟩ := shape_eq_ok_iff.1 hshape
  clear hshape
  induction hresolves with
  | here hview => exact h.trans fun _ hname => .refers (references_subset_of_view hview hmem hname)
  | custom hget =>
    obtain ⟨ctor, hctor, hargument⟩ := List.mem_flatMap.1 hmem
    exact h.trans fun _ hname => .through (reaches_named _) hget
      (references_subset_of_mem_arguments hctor hargument _ hname)
  | hop hget _ ih => exact (ih hmem).hop hget

/-- Over a closed schema, what is reached is defined. -/
theorem Reaches.contains (hclosed : schema.Closed) (hover : type.Over schema)
    (h : schema.Reaches type name) : schema.contains name := by
  cases h with
  | refers hmem => exact hover name hmem
  | through _ hget hmem => exact hclosed _ (mem_defs_of_get? hget) name hmem

/-- The search for a shape stops at an undefined name only if there is one. -/
theorem reaches_of_shapeWithin_undefinedType {hops : Nat}
    (h : schema.shapeWithin hops type = .error (.undefinedType name)) :
    schema.Reaches type name ∧ schema.get? name = none := by
  fun_induction shapeWithin schema hops type with
  | case1 hops type shape hview => cases h
  | case2 hops type first hview hget =>
    cases h
    cases Ty.eq_named_of_view hview
    exact ⟨reaches_named name, hget⟩
  | case3 hops type first hview d ctors hget => cases h
  | case4 type first hview d definition hget => cases h
  | case5 type first hview d definition hget hops ih =>
    cases Ty.eq_named_of_view hview
    exact ⟨(ih h).1.hop hget, (ih h).2⟩

theorem reaches_of_shape_undefinedType (h : schema.shape type = .error (.undefinedType name)) :
    schema.Reaches type name ∧ schema.get? name = none := by
  obtain ⟨_, _, _, _, hcircular⟩ | ⟨-, heq⟩ := schema.shape_cases type
  · cases hcircular.symm.trans h
  · exact reaches_of_shapeWithin_undefinedType (heq.symm.trans h)

end Schema

namespace Wire

/-- **An error that the schema is to blame for is that of a type that is reached**, however deep in
the message. -/
theorem Codec.Computes.exists_shape_error {σ τ : Type} {c : Codec σ τ} {schema : Schema}
    {run : Ty → σ → Except Error τ} (hc : c.Computes schema run) {e : Error}
    (he : e.ofSchema = true) (s : σ) : ∀ {type : Ty}, run type s = .error e →
      ∃ other, schema.shape other = .error e ∧
        ∀ name, schema.Reaches other name → schema.Reaches type name := by
  induction s using c.induction_parts with
  | h s ih =>
    intro type h
    obtain hshape | ⟨shape, hshape, t, ht, part, hpart, h⟩ := hc.error_cases h he
    · exact ⟨type, hshape, fun _ hname => hname⟩
    · obtain ⟨other, hother, hreaches⟩ := ih part hpart h
      exact ⟨other, hother, fun name hname => (hreaches name hname).of_shape hshape ht⟩

theorem Codec.Computes.ne_undefinedType {σ τ : Type} {c : Codec σ τ} {schema : Schema}
    {run : Ty → σ → Except Error τ} (hc : c.Computes schema run) (hclosed : schema.Closed)
    {type : Ty} (hover : type.Over schema) (s : σ) (missing : String) :
    run type s ≠ .error (.undefinedType missing) := by
  intro h
  obtain ⟨other, hshape, hother⟩ := hc.exists_shape_error rfl s h
  obtain ⟨hreaches, hget⟩ := Schema.reaches_of_shape_undefinedType hshape
  have hcontains := (hother missing hreaches).contains hclosed hover
  rw [Schema.contains, hget] at hcontains
  cases hcontains

/-- **Over the schema of a module, the codec never reports an undefined type**: neither for a value
nor for JSON, at whatever depth and through whatever definitions it goes. -/
theorem codec_ne_undefinedType {m : Source.Module} {schema : Schema} (h : m.toSchema = .ok schema)
    {name : String} (hname : name ∈ schema.names) (missing : String) :
    (∀ value, encodeNamed schema name value ≠ .error (.undefinedType missing)) ∧
      ∀ json, decodeNamed schema name json ≠ .error (.undefinedType missing) := by
  have hclosed : schema.Closed := Source.Module.closed_of_toSchema h
  have hover : (Ty.named name).Over schema := by
    intro other hother
    cases List.mem_singleton.1 hother
    exact Schema.contains_iff_mem_names.2 hname
  exact ⟨fun value => (encoding_computes schema).ne_undefinedType hclosed hover value missing,
    fun json => (decoding_computes schema).ne_undefinedType hclosed hover json missing⟩

/-- A message without its field, two definitions away from a recursive type, is refused for that. -/
theorem codec_ne_undefinedType_threads :
    Source.threadsModule.toSchema = .ok Source.threadsSchema ∧
      "InboundMessage" ∈ Source.threadsSchema.names ∧
      decodeNamed Source.threadsSchema "InboundMessage" (.object []) =
        .error (.missingField "threads") ∧
      ∀ missing json, decodeNamed Source.threadsSchema "InboundMessage" json ≠
        .error (.undefinedType missing) := by
  have hschema : Source.threadsModule.toSchema = .ok Source.threadsSchema := rfl
  have hname : "InboundMessage" ∈ Source.threadsSchema.names := by decide
  exact ⟨hschema, hname, rfl, fun missing => (codec_ne_undefinedType hschema hname missing).2⟩

end Wire
end ElmWire
