import ElmWire.Proofs.TypeScript.Reading
import ElmWire.Proofs.Wire.Format

/-!
# TypeScript types describe messages

`Inhabits declarations type json` says which JSON a TypeScript type describes.  An object has to
have exactly the members that its type lists.  A name is looked up together with the number of its
type arguments, so that a definition `Maybe` and the generic type `Maybe<T>` do not get into each
other's way.

* `inhabits_of_encodes` — **every message is described by the reading of its type**.
* `encode_inhabits` — and the reading is the only one that the generated text has.
-/

set_option autoImplicit false
namespace ElmWire.TypeScript

open Wire (Slot)

/-! ## Type arguments -/

mutual

/-- A type with types put in for some names. -/
def TypeExpr.subst (types : List (String × TypeExpr)) : TypeExpr → TypeExpr
  | .tuple items => .tuple (substAll types items)
  | .object members => .object (substMembers types members)
  | .ref name [] => (types.lookup name).getD (.ref name [])
  | .ref name arguments => .ref name (substAll types arguments)
  | .union alternatives => .union (substAll types alternatives)
  | type => type

/-- Types with types put in for some names. -/
def substAll (types : List (String × TypeExpr)) : List TypeExpr → List TypeExpr
  | [] => []
  | type :: rest => type.subst types :: substAll types rest

/-- Members with types put in for some names. -/
def substMembers (types : List (String × TypeExpr)) :
    List (String × TypeExpr) → List (String × TypeExpr)
  | [] => []
  | (name, type) :: rest => (name, type.subst types) :: substMembers types rest

end

mutual

theorem TypeExpr.subst_nil : ∀ type : TypeExpr, type.subst [] = type
  | .number | .boolean | .string | .never | .literal _ => by rw [TypeExpr.subst] <;> simp
  | .tuple items => by rw [TypeExpr.subst, substAll_nil items]
  | .object members => by rw [TypeExpr.subst, substMembers_nil members]
  | .ref name [] => by
    rw [TypeExpr.subst]
    rfl
  | .ref name (argument :: rest) => by
    rw [TypeExpr.subst, substAll_nil (argument :: rest)]
    simp
  | .union alternatives => by rw [TypeExpr.subst, substAll_nil alternatives]

theorem substAll_nil : ∀ types : List TypeExpr, substAll [] types = types
  | [] => by rw [substAll]
  | type :: rest => by rw [substAll, type.subst_nil, substAll_nil rest]

theorem substMembers_nil : ∀ members : List (String × TypeExpr), substMembers [] members = members
  | [] => by rw [substMembers]
  | (name, type) :: rest => by rw [substMembers, type.subst_nil, substMembers_nil rest]

end

/-- The type that a declaration is for, with these type arguments. -/
def Declaration.instantiate (d : Declaration) (arguments : List TypeExpr) : TypeExpr :=
  d.type.subst (d.params.zip arguments)

/-- The declaration of a name that takes this number of type arguments. -/
def resolve? (declarations : List Declaration) (name : String) (arity : Nat) :
    Option Declaration :=
  declarations.find? fun d => d.name = name ∧ d.params.length = arity

/-! ## What types describe -/

/-- The type of a member.  If a name is listed twice, the last one counts. -/
def memberType? (members : List (String × TypeExpr)) (name : String) : Option TypeExpr :=
  members.reverse.lookup name

/-- The type describes the JSON. -/
inductive Inhabits (declarations : List Declaration) : TypeExpr → Json → Prop
  | number (n : Json.Number) : Inhabits declarations .number (.number n)
  | boolean (b : Bool) : Inhabits declarations .boolean (.bool b)
  | string (s : String) : Inhabits declarations .string (.string s)
  | literal (s : String) : Inhabits declarations (.literal s) (.string s)
  | tuple {slots : List (TypeExpr × Json)}
      (h : ∀ slot ∈ slots, Inhabits declarations slot.1 slot.2) :
      Inhabits declarations (.tuple (slots.map Prod.fst)) (.array (slots.map Prod.snd))
  | object {types : List (String × TypeExpr)} {members : List (String × Json)}
      (hnames : ∀ name, name ∈ members.map Prod.fst ↔ name ∈ types.map Prod.fst)
      (h : ∀ name type json, memberType? types name = some type → (name, json) ∈ members →
        Inhabits declarations type json) :
      Inhabits declarations (.object types) (.object members)
  | union {types : List TypeExpr} {type : TypeExpr} {json : Json} (hmem : type ∈ types)
      (h : Inhabits declarations type json) : Inhabits declarations (.union types) json
  /-- `Array` is there without a declaration. -/
  | array {item : TypeExpr} {items : List Json} (hfree : resolve? declarations "Array" 1 = none)
      (h : ∀ json ∈ items, Inhabits declarations item json) :
      Inhabits declarations (.ref "Array" [item]) (.array items)
  | declared {name : String} {arguments : List TypeExpr} {d : Declaration} {json : Json}
      (hd : resolve? declarations name arguments.length = some d)
      (h : Inhabits declarations (d.instantiate arguments) json) :
      Inhabits declarations (.ref name arguments) json

section

variable {declarations : List Declaration}

theorem inhabits_object {slots : List (String × TypeExpr × Json)}
    (h : ∀ slot ∈ slots, Inhabits declarations slot.2.1 slot.2.2) :
    Inhabits declarations (.object (slots.map fun slot => (slot.1, slot.2.1)))
      (.object (Members.ofList (slots.map fun slot => (slot.1, slot.2.2)))) := by
  refine .object (fun name => ?_) fun name type json htype hjson => ?_
  · rw [Members.mem_names_ofList, List.map_map, List.map_map]
    rfl
  · have hlookup := Members.lookup_eq_some_of_mem (Members.ordered_ofList _).nodup_names hjson
    rw [Members.lookup_ofList, ← List.map_reverse, Members.lookup_map,
      Option.map_eq_some_iff] at hlookup
    rw [memberType?, ← List.map_reverse, Members.lookup_map, Option.map_eq_some_iff] at htype
    obtain ⟨slot, hslot, rfl⟩ := hlookup
    obtain ⟨slot', hslot', rfl⟩ := htype
    rw [hslot] at hslot'
    cases hslot'
    exact h _ (List.mem_reverse.1 (Members.mem_of_lookup_eq_some hslot))

theorem inhabits_envelope (name : String) {slots : List (TypeExpr × Json)}
    (h : ∀ slot ∈ slots, Inhabits declarations slot.1 slot.2) :
    Inhabits declarations (variantReading name (slots.map Prod.fst))
      (Wire.envelope name (slots.map Prod.snd)) := by
  have hplaces : ∀ slot ∈ (Wire.variantTag, TypeExpr.literal name, Json.string name) ::
      slots.zipIdx.map (fun place => (Wire.argKey place.2, place.1)),
      Inhabits declarations slot.2.1 slot.2.2 := by
    refine List.forall_mem_cons.2 ⟨.literal name, fun slot hslot => ?_⟩
    obtain ⟨place, hplace, rfl⟩ := List.mem_map.1 hslot
    exact h place.1 (List.fst_mem_of_mem_zipIdx hplace)
  have hobject := inhabits_object hplaces
  rw [List.map_cons, List.map_cons, List.map_map, List.map_map] at hobject
  rw [variantReading, Wire.envelope, List.mapIdx_eq_zipIdx_map, List.mapIdx_eq_zipIdx_map,
    List.zipIdx_map, List.zipIdx_map, List.map_map, List.map_map]
  exact hobject

theorem inhabits_ofAlternatives {types : List TypeExpr} {type : TypeExpr} {json : Json}
    (hmem : type ∈ types) (h : Inhabits declarations type json) :
    Inhabits declarations (.ofAlternatives types) json := by
  match types, hmem with
  | [_], hmem =>
    cases List.mem_singleton.1 hmem
    exact h
  | _ :: _ :: _, hmem => exact .union hmem h

theorem inhabits_unionReading {types : List TypeExpr} {type : TypeExpr} {json : Json}
    (hmem : type ∈ types) (h : Inhabits declarations type json) :
    Inhabits declarations (unionReading types) json := by
  cases types with
  | nil => cases hmem
  | cons first rest => exact inhabits_ofAlternatives hmem h

end

/-! ## Messages -/

/-- All declarations that a type of a schema may refer to. -/
def declarations (schema : Schema) : List Declaration :=
  schema.defs.map TypeDef.reading ++ genericDeclarations

section

variable {schema : Schema}

theorem name_reading (d : TypeDef) : d.reading.name = d.name := by cases d <;> rfl

theorem params_reading (d : TypeDef) : d.reading.params = [] := by cases d <;> rfl

theorem resolve?_named {name : String} {d : TypeDef} (hget : schema.get? name = some d) :
    resolve? (declarations schema) name 0 = some d.reading := by
  have hfind : (schema.defs.map TypeDef.reading).find? (fun d =>
      d.name = name ∧ d.params.length = 0) = some d.reading := by
    rw [List.find?_map]
    refine congrArg (Option.map TypeDef.reading) (Eq.trans ?_ hget)
    refine congrArg (fun p => schema.defs.find? p) (funext fun d => ?_)
    simp [name_reading, params_reading]
  rw [resolve?, declarations, List.find?_append, hfind]
  rfl

/-- Only the generic types take type arguments. -/
theorem resolve?_generic (name : String) {arity : Nat} (harity : arity ≠ 0) :
    resolve? (declarations schema) name arity = resolve? genericDeclarations name arity := by
  have hfind : (schema.defs.map TypeDef.reading).find? (fun d =>
      d.name = name ∧ d.params.length = arity) = none := by
    rw [List.find?_eq_none]
    intro other hother
    obtain ⟨d, -, rfl⟩ := List.mem_map.1 hother
    simp [params_reading, harity.symm]
  rw [resolve?, declarations, List.find?_append, hfind]
  rfl

theorem fieldReadings_eq (fields : List (String × Ty)) :
    fieldReadings fields = fields.map fun field => (field.1, field.2.reading) := by
  induction fields with
  | nil => rfl
  | cons field rest ih => rw [fieldReadings, ih]; rfl

/-- The name of a definition describes what its declaration says. -/
theorem inhabits_named_iff {name : String} {d : TypeDef} (hget : schema.get? name = some d)
    {json : Json} :
    Inhabits (declarations schema) (.ref name []) json ↔
      Inhabits (declarations schema) d.reading.type json := by
  have hresolve := resolve?_named hget
  have hinstantiate : d.reading.instantiate [] = d.reading.type := by
    rw [Declaration.instantiate, params_reading, List.zip_nil_left, TypeExpr.subst_nil]
  constructor
  · intro h
    cases h with
    | declared hd h =>
      cases Option.some.inj (hresolve.symm.trans hd)
      rwa [hinstantiate] at h
  · intro h
    exact .declared hresolve (hinstantiate.symm ▸ h)

theorem inhabits_maybe {item : TypeExpr} {type : TypeExpr} {json : Json}
    (hmem : type ∈ [variantReading Wire.just [item], variantReading Wire.nothing []])
    (h : Inhabits (declarations schema) type json) :
    Inhabits (declarations schema) (.ref "Maybe" [item]) json := by
  have hresolve : resolve? (declarations schema) "Maybe" 1 = _ := resolve?_generic _ (by decide)
  exact .declared hresolve (.union hmem h)

theorem inhabits_result {error ok type : TypeExpr} {json : Json}
    (hmem : type ∈ [variantReading Wire.ok [ok], variantReading Wire.err [error]])
    (h : Inhabits (declarations schema) type json) :
    Inhabits (declarations schema) (.ref "Result" [error, ok]) json := by
  have hresolve : resolve? (declarations schema) "Result" 2 = _ := resolve?_generic _ (by decide)
  exact .declared hresolve (.union hmem h)

/-- A tuple, from its places. -/
theorem inhabits_tuple {slots : List Slot}
    (h : ∀ slot ∈ slots, Inhabits (declarations schema) slot.type.reading slot.json) :
    Inhabits (declarations schema) (.tuple ((slots.map Slot.type).map Ty.reading))
      (.array (slots.map Slot.json)) := by
  have htuple := @Inhabits.tuple (declarations schema)
    (slots.map fun slot => (slot.type.reading, slot.json)) (List.forall_mem_map.2 h)
  rw [List.map_map, List.map_map] at htuple
  rw [List.map_map]
  exact htuple

/-- A constructor with arguments, from their places. -/
theorem inhabits_variant (tag : String) {slots : List Slot}
    (h : ∀ slot ∈ slots, Inhabits (declarations schema) slot.type.reading slot.json) :
    Inhabits (declarations schema) (variantReading tag ((slots.map Slot.type).map Ty.reading))
      (Wire.envelope tag (slots.map Slot.json)) := by
  have henvelope := @inhabits_envelope (declarations schema) tag
    (slots.map fun slot => (slot.type.reading, slot.json)) (List.forall_mem_map.2 h)
  rw [List.map_map, List.map_map] at henvelope
  rw [List.map_map]
  exact henvelope

/-- A record, from the places of its fields. -/
theorem inhabits_record {slots : List (String × Slot)}
    (h : ∀ slot ∈ slots, Inhabits (declarations schema) slot.2.type.reading slot.2.json) :
    Inhabits (declarations schema)
      (.object (fieldReadings (slots.map fun slot => (slot.1, slot.2.type))))
      (.object (Members.ofList (slots.map fun slot => (slot.1, slot.2.json)))) := by
  have hobject := @inhabits_object (declarations schema)
    (slots.map fun slot => (slot.1, slot.2.type.reading, slot.2.json)) (List.forall_mem_map.2 h)
  rw [List.map_map, List.map_map] at hobject
  rw [fieldReadings_eq, List.map_map]
  exact hobject

/-- **Every message is described by the reading of its type.** -/
theorem inhabits_of_encodes {type : Ty} {value : Value} {json : Json}
    (h : Wire.Encodes schema type value json) :
    Inhabits (declarations schema) type.reading json := by
  induction h with
  | unit =>
    rw [Ty.reading]
    exact @inhabits_variant schema Wire.unitTag [] (by simp)
  | bool b => exact .boolean b
  | int _ => exact .number _
  | float _ => exact .number _
  | char c => exact .string _
  | string s => exact .string s
  | list _ ih =>
    rw [Ty.reading]
    exact .array ((resolve?_generic "Array" (by decide)).trans rfl) (List.forall_mem_map.2 ih)
  | @pair a b _ _ iha ihb =>
    rw [Ty.reading]
    exact @inhabits_tuple schema [a, b] (by simp [iha, ihb])
  | @triple a b c _ _ _ iha ihb ihc =>
    rw [Ty.reading]
    exact @inhabits_tuple schema [a, b, c] (by simp [iha, ihb, ihc])
  | record _ _ ih =>
    rw [Ty.reading]
    exact inhabits_record ih
  | @just slot _ ih =>
    rw [Ty.reading]
    have hvariant := @inhabits_variant schema Wire.just [slot] (by simp [ih])
    exact inhabits_maybe (List.mem_cons_self ..) hvariant
  | nothing item =>
    rw [Ty.reading]
    have hvariant := @inhabits_variant schema Wire.nothing [] (by simp)
    exact inhabits_maybe (List.mem_cons_of_mem _ (List.mem_singleton_self _)) hvariant
  | @ok error slot _ ih =>
    rw [Ty.reading]
    have hvariant := @inhabits_variant schema Wire.ok [slot] (by simp [ih])
    exact inhabits_result (List.mem_cons_self ..) hvariant
  | @err success slot _ ih =>
    rw [Ty.reading]
    have hvariant := @inhabits_variant schema Wire.err [slot] (by simp [ih])
    exact inhabits_result (List.mem_cons_of_mem _ (List.mem_singleton_self _)) hvariant
  | hop hget _ ih =>
    rw [Ty.reading]
    exact (inhabits_named_iff hget).2 ih
  | @custom name d tag ctors ctor slots hget hctor htypes _ ih =>
    have hvariant := inhabits_variant tag ih
    rw [← htypes, ← Wire.name_of_ctor? hctor] at hvariant
    rw [Ty.reading, ← Wire.name_of_ctor? hctor]
    exact (inhabits_named_iff hget).2
      (inhabits_unionReading (List.mem_map_of_mem (Wire.mem_of_ctor? hctor)) hvariant)

end

/-! ## Generated text -/

theorem reads_iff {type : Ty} (hnames : ∀ name ∈ type.references, isUpperName name)
    (hfields : type.LowerFields) (t : TypeExpr) : Reads type.toTypeScript t ↔ t = type.reading := by
  have hreads : Reads type.toTypeScript type.reading := (writes_type type hnames hfields).reads
  exact ⟨fun h => h.unique hreads, fun h => h ▸ hreads⟩

theorem readsAll_iff {text : String} {ds : List Declaration} (h : ReadsAll text ds)
    (others : List Declaration) : ReadsAll text others ↔ others = ds :=
  ⟨fun hothers => hothers.unique h, fun hothers => hothers ▸ h⟩

/-- **The TypeScript types are in step with the wire.**  The generated text of a schema and the text
of the generic types say exactly one list of declarations each.  With these, the text of a type says
exactly one type, and that type describes every message that the encoder produces for it; and so
does the exported type of every definition. -/
theorem encode_inhabits (schema : Schema) (hnames : schema.Identifiers) (hclosed : schema.Closed) :
    ∃ exported generics : List Declaration,
      (∀ ds, ReadsAll schema.toTypeScript ds ↔ ds = exported) ∧
      (∀ ds, ReadsAll genericTypes ds ↔ ds = generics) ∧
      (∀ type : Ty, type.Over schema → type.LowerFields →
        ∃ t, (∀ t', Reads type.toTypeScript t' ↔ t' = t) ∧
          ∀ value json, Wire.encode schema type value = .ok json →
            Inhabits (exported ++ generics) t json) ∧
      ∀ name d, schema.get? name = some d →
        ∃ t, (∀ ds, ReadsAll d.toTypeScript ds ↔ ds = [⟨name, [], t⟩]) ∧ ⟨name, [], t⟩ ∈ exported ∧
          ∀ value json, Wire.encodeNamed schema name value = .ok json →
            Inhabits (exported ++ generics) t json := by
  refine ⟨schema.defs.map TypeDef.reading, genericDeclarations,
    readsAll_iff (schema.readsAll hnames hclosed), readsAll_iff readsAll_genericTypes, ?_, ?_⟩
  · intro type hover hfields
    refine ⟨type.reading, reads_iff (fun name hname => hnames.reference (hover name hname)) hfields,
      fun value json hjson => ?_⟩
    exact inhabits_of_encodes (Wire.encode_eq_ok_iff.1 hjson)
  · intro name d hget
    have hmem : d ∈ schema.defs := Schema.mem_defs_of_get? hget
    have hname : d.name = name := Schema.name_of_get? hget
    have hreading : d.reading = ⟨name, [], d.reading.type⟩ := by
      rw [← hname, ← name_reading, ← params_reading]
    refine ⟨d.reading.type, ?_, ?_, fun value json hjson => ?_⟩
    · rw [← hreading]
      exact readsAll_iff (d.declares hnames hclosed hmem).readsAll
    · rw [← hreading]
      exact List.mem_map_of_mem hmem
    · exact (inhabits_named_iff hget).1 (inhabits_of_encodes (Wire.encode_eq_ok_iff.1 hjson))

/-- The exported type of trees describes a leaf, and the type of lists of optional trees describes a
list with a leaf in it. -/
theorem encode_inhabits_tree :
    treeSchema.Identifiers ∧ treeSchema.Closed ∧
    (Ty.list (.maybe (.named "Tree"))).Over treeSchema ∧
    (Ty.list (.maybe (.named "Tree"))).LowerFields ∧
    ∃ exported generics tree trees,
      ReadsAll treeSchema.toTypeScript exported ∧ ReadsAll genericTypes generics ∧
      ⟨"Tree", [], tree⟩ ∈ exported ∧
      Inhabits (exported ++ generics) tree (.object [("variant", .string "Leaf")]) ∧
      Reads (Ty.list (.maybe (.named "Tree"))).toTypeScript trees ∧
      Inhabits (exported ++ generics) trees (.array [.object
        [("_0", .object [("variant", .string "Leaf")]), ("variant", .string "Just")]]) := by
  have hnames : treeSchema.Identifiers := ⟨by decide, by decide, by decide⟩
  have hclosed : treeSchema.Closed := by decide
  have hover : (Ty.list (.maybe (.named "Tree"))).Over treeSchema := by decide
  have hfields : (Ty.list (.maybe (.named "Tree"))).LowerFields := by decide
  obtain ⟨exported, generics, hexported, hgenerics, htypes, hdefs⟩ :=
    encode_inhabits treeSchema hnames hclosed
  obtain ⟨tree, -, hmem, htree⟩ := hdefs "Tree" _ rfl
  obtain ⟨trees, htext, htrees⟩ := htypes _ hover hfields
  have hleaf := htree (.variant "Leaf" []) _ rfl
  have hlist := htrees (.list [.variant "Just" [.variant "Leaf" []]]) _ rfl
  exact ⟨hnames, hclosed, hover, hfields, exported, generics, tree, trees, (hexported _).2 rfl,
    (hgenerics _).2 rfl, hmem, hleaf, (htext _).2 rfl, hlist⟩

end ElmWire.TypeScript
