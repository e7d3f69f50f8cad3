import ElmWire.Proofs.Wire.RoundTrip

/-!
# What was read can be sent again

The decoder takes more than the encoder makes: objects with members that no field asks for, arrays
with more items than the tuple, `1.0` for an integer and `1` for a float.  Still, **whatever it
takes is a value of the type**, with nothing left over (`exact_of_decode`), and so the encoder has a
message for it.  Reading a message and sending it again therefore gives a normal form: the message
that the encoder makes for the value, which is read as the same value and sent as itself.

* `Json.Finite` — all numbers in the JSON are finite as floats.
* `Exact schema type value` — the value belongs to the type, and its records have exactly the fields
  that their types declare.
-/

set_option autoImplicit false
namespace ElmWire

/-- All numbers in the JSON are finite as floats. -/
inductive Json.Finite : Json → Prop
  | intro {json : Json} (hnumber : ∀ n, json = .number n → n.toFloat.isFinite)
      (hparts : ∀ part ∈ json.parts, Json.Finite part) : Json.Finite json

theorem Json.finite_iff {json : Json} : json.Finite ↔
    (∀ n, json = .number n → n.toFloat.isFinite) ∧ ∀ part ∈ json.parts, part.Finite :=
  ⟨fun ⟨hnumber, hparts⟩ => ⟨hnumber, hparts⟩, fun ⟨hnumber, hparts⟩ => ⟨hnumber, hparts⟩⟩

theorem Json.Finite.part {json part : Json} (h : json.Finite) (hpart : part ∈ json.parts) :
    part.Finite := (Json.finite_iff.1 h).2 part hpart

@[simp] theorem Json.finite_number {n : Json.Number} :
    (Json.number n).Finite ↔ n.toFloat.isFinite := by
  rw [Json.finite_iff]
  simp [Json.parts]

@[simp] theorem Json.finite_object {members : List (String × Json)} :
    (Json.object members).Finite ↔ ∀ member ∈ members, member.2.Finite := by
  rw [Json.finite_iff, Json.parts, List.forall_mem_map]
  simp

theorem Json.Finite.leaf {json : Json} (hparts : json.parts = [])
    (hnumber : ∀ n, json ≠ .number n) : json.Finite := by
  rw [Json.finite_iff, hparts]
  exact ⟨fun n heq => absurd heq (hnumber n), by simp⟩

namespace Wire

variable {schema : Schema}

/-! ## The places that were read -/

/-- The slot is a place of a message, and its value was read there. -/
structure Read (schema : Schema) (json : Json) (slot : Slot) : Prop where
  part : slot.json ∈ json.parts
  decode : decode schema slot.type slot.json = .ok slot.value

theorem exists_slots_of_decodeEach {types : List Ty} {items : List Json} {values : List Value}
    (hlength : types.length ≤ items.length) (h : decodeEach schema types items = .ok values) :
    ∃ slots : List Slot, types = slots.map Slot.type ∧ values = slots.map Slot.value ∧
      ∀ slot ∈ slots, Read schema (.array items) slot := by
  rw [decodeEach_eq, mapM_eq_ok_iff] at h
  obtain ⟨pairs, hpairs, hvalues, hdecode⟩ := exists_pairs_of_forall₂ h
  refine ⟨pairs.map fun pair => ⟨pair.1.1, pair.2, pair.1.2⟩, ?_, ?_, ?_⟩
  · rw [← List.map_fst_zip hlength, hpairs, List.map_map, List.map_map]
    rfl
  · rw [hvalues, List.map_map]
    rfl
  · refine List.forall_mem_map.2 fun pair hmem => ⟨?_, hdecode pair hmem⟩
    have hzip : pair.1 ∈ types.zip items := hpairs ▸ List.mem_map_of_mem hmem
    exact (List.of_mem_zip hzip).2

theorem exists_slots_of_memberDecoders {members : List (String × Json)}
    {fields : List (String × Ty)} {values : List (String × Value)}
    (h : eachField (memberDecoders schema members) fields = .ok values) :
    ∃ slots : List (String × Slot), fields = slots.map (fun slot => (slot.1, slot.2.type)) ∧
      values = slots.map (fun slot => (slot.1, slot.2.value)) ∧
      ∀ slot ∈ slots, Read schema (.object members) slot.2 := by
  rw [eachField_eq_ok_iff] at h
  induction h with
  | nil => exact ⟨[], rfl, rfl, by simp⟩
  | @cons field value fields values hfirst _ ih =>
    obtain ⟨slots, rfl, rfl, hslots⟩ := ih
    obtain ⟨hname, action, haction, hvalue⟩ := hfirst
    rw [lookup_memberDecoders, Option.map_eq_some_iff] at haction
    obtain ⟨json, hjson, rfl⟩ := haction
    refine ⟨(field.1, ⟨field.2, value.2, json⟩) :: slots, rfl, ?_, ?_⟩
    · rw [List.map_cons, ← hname]
    · refine List.forall_mem_cons.2 ⟨⟨?_, hvalue⟩, hslots⟩
      exact List.mem_map.2 ⟨_, Members.mem_of_lookup_eq_some hjson, rfl⟩

/-- What the decoder does at a tagged shape. -/
theorem exists_slots_of_decodeShape_tagged {label : String} {ctors : List Ctor} {json : Json}
    {value : Value} (h : decodeShape schema (.tagged label ctors) json = .ok value) :
    ∃ (tag : String) (ctor : Ctor) (slots : List Slot),
      ctor? ctors tag = .ok ctor ∧ ctor.arguments = slots.map Slot.type ∧
      value = .variant tag (slots.map Slot.value) ∧
      ∀ slot ∈ slots, Read schema json slot := by
  cases json with
  | object members =>
    rw [decodeShape] at h
    obtain ⟨ctor, htag, h⟩ := bind_eq_ok_iff.1 h
    obtain ⟨values, hvalues, h⟩ := bind_eq_ok_iff.1 h
    obtain ⟨tag, hctor⟩ := exists_tag_of_tag? htag
    obtain ⟨slots, hfields, rfl, hslots⟩ := exists_slots_of_memberDecoders hvalues
    have htypes := congrArg (List.map Prod.snd) hfields
    have harguments : (ctor.arguments.mapIdx fun i type => (argKey i, type)).map Prod.snd =
        ctor.arguments := by
      rw [List.mapIdx_eq_zipIdx_map, List.map_map]
      exact List.zipIdx_map_fst 0 ctor.arguments
    refine ⟨tag, ctor, slots.map Prod.snd, hctor, ?_, ?_, List.forall_mem_map.2 hslots⟩
    · rw [← harguments, htypes, List.map_map, List.map_map]
      rfl
    · rw [← Except.ok.inj h, name_of_ctor? hctor, List.map_map, List.map_map]
      rfl
  | _ => simp [decodeShape, throw, throwThe, MonadExceptOf.throw] at h

/-- What the decoder does at a tuple shape. -/
theorem exists_slots_of_decodeShape_tuple {types : List Ty} {json : Json} {value : Value}
    (h : decodeShape schema (.tuple types) json = .ok value) :
    ∃ slots : List Slot, types = slots.map Slot.type ∧ value = .tuple (slots.map Slot.value) ∧
      ∀ slot ∈ slots, Read schema json slot := by
  cases json with
  | array items =>
    rw [decodeShape] at h
    split at h
    · cases h
    · next hlength =>
      obtain ⟨values, hvalues, h⟩ := bind_eq_ok_iff.1 h
      obtain ⟨slots, htypes, rfl, hslots⟩ := exists_slots_of_decodeEach (not_lt.1 hlength) hvalues
      exact ⟨slots, htypes, (Except.ok.inj h).symm, hslots⟩
  | _ => simp [decodeShape, throw, throwThe, MonadExceptOf.throw] at h

/-- What the decoder does at a record shape. -/
theorem exists_slots_of_decodeShape_record {fields : List (String × Ty)} {json : Json}
    {value : Value} (h : decodeShape schema (.record fields) json = .ok value) :
    ∃ slots : List (String × Slot), fields = slots.map (fun slot => (slot.1, slot.2.type)) ∧
      value = .record (Members.ofList (slots.map fun slot => (slot.1, slot.2.value))) ∧
      ∀ slot ∈ slots, Read schema json slot.2 := by
  cases json with
  | object members =>
    rw [decodeShape] at h
    obtain ⟨values, hvalues, h⟩ := bind_eq_ok_iff.1 h
    obtain ⟨slots, hfields, rfl, hslots⟩ := exists_slots_of_memberDecoders hvalues
    exact ⟨slots, hfields, (Except.ok.inj h).symm, hslots⟩
  | _ => simp [decodeShape, throw, throwThe, MonadExceptOf.throw] at h

/-- What the decoder does at a list shape. -/
theorem exists_slots_of_decodeShape_list {item : Ty} {json : Json} {value : Value}
    (h : decodeShape schema (.list item) json = .ok value) :
    ∃ slots : List (Json × Value), value = .list (slots.map Prod.snd) ∧
      ∀ slot ∈ slots, Read schema json ⟨item, slot.2, slot.1⟩ := by
  cases json with
  | array items =>
    rw [decodeShape] at h
    obtain ⟨values, hvalues, h⟩ := bind_eq_ok_iff.1 h
    rw [decodeItems_eq, mapM_eq_ok_iff] at hvalues
    obtain ⟨slots, rfl, rfl, hslots⟩ := exists_pairs_of_forall₂ hvalues
    exact ⟨slots, (Except.ok.inj h).symm, fun slot hmem =>
      ⟨List.mem_map_of_mem hmem, hslots slot hmem⟩⟩
  | _ => simp [decodeShape, throw, throwThe, MonadExceptOf.throw] at h

/-! ## What was read is a value of the type -/

/-- A value of a type whose records have the fields that their types declare and no others, each of
them once. -/
structure Exact (schema : Schema) (type : Ty) (value : Value) : Prop where
  hasType : HasType schema .forbidden type value
  ordered : value.Ordered

theorem exact_record {slots : List (String × Slot)} (hnodup : (slots.map Prod.fst).Nodup)
    (h : ∀ slot ∈ slots, Exact schema slot.2.type slot.2.value) :
    Exact schema (.record (slots.map fun slot => (slot.1, slot.2.type)))
      (.record (Members.ofList (slots.map fun slot => (slot.1, slot.2.value)))) := by
  have hnames : ((slots.map fun slot => (slot.1, slot.2.value)).map Prod.fst).Nodup := by
    rw [List.map_map]
    exact hnodup
  have hfound : ∀ slot ∈ slots, (Members.ofList (slots.map fun slot =>
      (slot.1, slot.2.value))).lookup slot.1 = some slot.2.value := by
    intro slot hmem
    rw [Members.lookup_ofList_of_nodup hnames]
    exact Members.lookup_eq_some_of_mem hnames (List.mem_map.2 ⟨slot, hmem, rfl⟩)
  -- What is found in the record comes from one of the slots.
  have hparts : ∀ field ∈ Members.ofList (slots.map fun slot => (slot.1, slot.2.value)),
      ∃ slot ∈ slots, (slot.1, slot.2.value) = field := fun field hmem =>
    List.mem_map.1 (Members.mem_of_mem_ofList hmem)
  refine ⟨.record ?_ ?_ ?_, ?_⟩
  · exact List.forall_mem_map.2 fun slot hmem => ⟨_, hfound slot hmem⟩
  · refine List.forall_mem_map.2 fun slot hmem value hvalue => ?_
    cases (hfound slot hmem).symm.trans hvalue
    exact (h slot hmem).hasType
  · intro _ field hmem
    obtain ⟨slot, hslot, rfl⟩ := hparts field hmem
    exact List.mem_map.2 ⟨_, List.mem_map_of_mem hslot, rfl⟩
  · rw [Value.ordered_record]
    refine ⟨Members.ordered_ofList _, fun field hmem => ?_⟩
    obtain ⟨slot, hslot, rfl⟩ := hparts field hmem
    exact (h slot hslot).ordered

theorem safe_of_safeInt? {n : Json.Number} {i : Int} (h : safeInt? n = .ok i) : isSafeInt i := by
  rw [safeInt?] at h
  split at h
  · split at h
    · next hsafe =>
      cases h
      exact hsafe
    · cases h
  · cases h

theorem exact_scalar {type : Ty} {shape : Shape} {json : Json} {value : Value}
    (hview : type.view = .shape shape)
    (hscalar : type = .unit ∨ type = .bool ∨ type = .int ∨ type = .float ∨ type = .char ∨
      type = .string) (hfinite : json.Finite)
    (h : decodeShape schema shape json = .ok value) : Exact schema type value := by
  rcases hscalar with rfl | rfl | rfl | rfl | rfl | rfl <;> cases hview
  · rw [decodeShape] at h
    obtain ⟨members, -, h⟩ := bind_eq_ok_iff.1 h
    obtain ⟨ctor, -, h⟩ := bind_eq_ok_iff.1 h
    cases h
    exact ⟨.unit, .leaf rfl (by simp)⟩
  all_goals
    cases json <;>
      simp only [decodeShape, pure, Except.pure, throw, throwThe, MonadExceptOf.throw,
        reduceCtorEq] at h
  · cases h
    exact ⟨.bool _, .leaf rfl (by simp)⟩
  · obtain ⟨i, hi, h⟩ := bind_eq_ok_iff.1 h
    cases h
    obtain ⟨hlow, hhigh⟩ := isSafeInt_iff.1 (safe_of_safeInt? hi)
    exact ⟨.int hlow hhigh, .leaf rfl (by simp)⟩
  · cases h
    exact ⟨.float (Json.finite_number.1 hfinite), .leaf rfl (by simp)⟩
  · obtain ⟨c, -, h⟩ := bind_eq_ok_iff.1 h
    cases h
    exact ⟨.char c, .leaf rfl (by simp)⟩
  · cases h
    exact ⟨.string _, .leaf rfl (by simp)⟩

theorem exact_of_decodeShape {type : Ty} {shape : Shape} {json : Json} {value : Value}
    (hview : type.view = .shape shape) (htype : type.DistinctFields) (hfinite : json.Finite)
    (h : decodeShape schema shape json = .ok value)
    (ih : ∀ slot, Read schema json slot → slot.type.DistinctFields →
      Exact schema slot.type slot.value) : Exact schema type value := by
  cases type with
  | named name => simp [Ty.view] at hview
  | list item =>
    cases hview
    obtain ⟨slots, rfl, hslots⟩ := exists_slots_of_decodeShape_list h
    have hparts : ∀ slot ∈ slots, Exact schema item slot.2 := fun slot hmem =>
      ih _ (hslots slot hmem) htype
    refine ⟨.list (List.forall_mem_map.2 fun slot hmem => (hparts slot hmem).hasType), ?_⟩
    exact Value.ordered_list.2 (List.forall_mem_map.2 fun slot hmem => (hparts slot hmem).ordered)
  | pair first second =>
    cases hview
    obtain ⟨slots, htypes, rfl, hslots⟩ := exists_slots_of_decodeShape_tuple h
    obtain ⟨a, _, rfl, rfl, hrest⟩ := List.map_eq_cons_iff.1 htypes.symm
    obtain ⟨b, rfl, rfl⟩ := List.map_eq_singleton_iff.1 hrest
    obtain ⟨hfirst, hsecond⟩ := Ty.distinctFields_pair.1 htype
    have ha := ih a (hslots a (by simp)) hfirst
    have hb := ih b (hslots b (by simp)) hsecond
    exact ⟨.pair ha.hasType hb.hasType, by simp [ha.ordered, hb.ordered]⟩
  | triple first second third =>
    cases hview
    obtain ⟨slots, htypes, rfl, hslots⟩ := exists_slots_of_decodeShape_tuple h
    obtain ⟨a, _, rfl, rfl, hrest⟩ := List.map_eq_cons_iff.1 htypes.symm
    obtain ⟨b, _, rfl, rfl, hlast⟩ := List.map_eq_cons_iff.1 hrest
    obtain ⟨c, rfl, rfl⟩ := List.map_eq_singleton_iff.1 hlast
    obtain ⟨hfirst, hsecond, hthird⟩ := Ty.distinctFields_triple.1 htype
    have ha := ih a (hslots a (by simp)) hfirst
    have hb := ih b (hslots b (by simp)) hsecond
    have hc := ih c (hslots c (by simp)) hthird
    exact ⟨.triple ha.hasType hb.hasType hc.hasType, by simp [ha.ordered, hb.ordered, hc.ordered]⟩
  | record fields =>
    cases hview
    obtain ⟨slots, rfl, rfl, hslots⟩ := exists_slots_of_decodeShape_record h
    refine exact_record ?_ fun slot hmem => ?_
    · have hnodup := htype.nodup
      rwa [List.map_map] at hnodup
    · exact ih _ (hslots slot hmem) (htype.field (List.mem_map.2 ⟨slot, hmem, rfl⟩))
  | maybe item =>
    cases hview
    obtain ⟨tag, ctor, slots, hctor, htypes, rfl, hslots⟩ := exists_slots_of_decodeShape_tagged h
    obtain ⟨rfl, rfl⟩ | ⟨rfl, rfl⟩ := ctor?_maybeCtors hctor
    · obtain ⟨a, rfl, rfl⟩ := List.map_eq_singleton_iff.1 htypes.symm
      have ha := ih a (hslots a (by simp)) htype
      exact ⟨.just ha.hasType, by simp [ha.ordered]⟩
    · cases List.map_eq_nil_iff.1 htypes.symm
      exact ⟨.nothing item, by simp⟩
  | result error success =>
    cases hview
    obtain ⟨tag, ctor, slots, hctor, htypes, rfl, hslots⟩ := exists_slots_of_decodeShape_tagged h
    obtain ⟨herror, hsuccess⟩ := Ty.distinctFields_result.1 htype
    obtain ⟨rfl, rfl⟩ | ⟨rfl, rfl⟩ := ctor?_resultCtors hctor
    · obtain ⟨a, rfl, rfl⟩ := List.map_eq_singleton_iff.1 htypes.symm
      have ha := ih a (hslots a (by simp)) hsuccess
      exact ⟨.ok error ha.hasType, by simp [ha.ordered]⟩
    · obtain ⟨a, rfl, rfl⟩ := List.map_eq_singleton_iff.1 htypes.symm
      have ha := ih a (hslots a (by simp)) herror
      exact ⟨.err success ha.hasType, by simp [ha.ordered]⟩
  | _ => exact exact_scalar hview (by simp) hfinite h

theorem exact_of_decodeShape_custom {name d : String} {ctors : List Ctor} {json : Json}
    {value : Value} (hget : schema.get? name = some (.custom d ctors))
    (h : decodeShape schema (.tagged name ctors) json = .ok value)
    (ih : ∀ slot, Read schema json slot → (∃ ctor ∈ ctors, slot.type ∈ ctor.arguments) →
      Exact schema slot.type slot.value) : Exact schema (.named name) value := by
  obtain ⟨tag, ctor, slots, hctor, htypes, rfl, hslots⟩ := exists_slots_of_decodeShape_tagged h
  have hparts : ∀ slot ∈ slots, Exact schema slot.type slot.value := fun slot hmem =>
    ih slot (hslots slot hmem) ⟨ctor, mem_of_ctor? hctor, htypes ▸ List.mem_map_of_mem hmem⟩
  cases name_of_ctor? hctor
  refine ⟨.custom hget (ctor?_eq_ok_iff.1 hctor) (by simp [htypes]) ?_, ?_⟩
  · rw [htypes, List.zip_map']
    exact List.forall_mem_map.2 fun slot hmem => (hparts slot hmem).hasType
  · exact Value.ordered_variant.2
      (List.forall_mem_map.2 fun slot hmem => (hparts slot hmem).ordered)

/-- **Whatever is read at a type is a value of the type**, with nothing left over. -/
theorem exact_of_decode (hdistinct : schema.DistinctFields) (json : Json) :
    ∀ {type : Ty} {value : Value}, type.DistinctFields → json.Finite →
      decode schema type json = .ok value → Exact schema type value := by
  induction json using Json.induction_parts with
  | h json ih =>
    intro type value htype hfinite h
    obtain ⟨shape, hshape, hdecode⟩ := bind_eq_ok_iff.1 h
    obtain ⟨hops, hresolves⟩ := Schema.shape_eq_ok_iff.1 hshape
    have hread : ∀ slot, Read schema json slot → slot.type.DistinctFields →
        Exact schema slot.type slot.value := fun slot hslot hfields =>
      ih slot.json hslot.part hfields (hfinite.part hslot.part) hslot.decode
    clear h hshape
    -- The JSON stays the same while aliases are followed, so this is a second induction.
    induction hresolves with
    | here hview => exact exact_of_decodeShape hview htype hfinite hdecode hread
    | custom hget =>
      refine exact_of_decodeShape_custom hget hdecode fun slot hslot ⟨ctor, hctor, hmem⟩ => ?_
      exact hread slot hslot fun fields hfields =>
        hdistinct fields (Schema.records_subset_of_custom hget hctor hmem hfields)
    | hop hget _ ih' =>
      have hexact := ih' (fun fields hfields =>
        hdistinct fields (Schema.records_subset_of_alias hget hfields)) hdecode
      exact ⟨.hop hget hexact.hasType, hexact.ordered⟩

/-! ## The normal form of a message -/

/-- What an exact value is sent as is read as the value. -/
theorem Exact.exists_encode (hdistinct : schema.DistinctFields) {type : Ty}
    (htype : type.DistinctFields) {value : Value} (h : Exact schema type value) :
    ∃ json, encode schema type value = .ok json ∧ decode schema type json = .ok value := by
  obtain ⟨json, hencodes⟩ := encodes_of_hasType h.hasType
  refine ⟨json, encode_of_encodes hencodes, ?_⟩
  rw [decode_of_encodes hdistinct hencodes htype h.ordered, declared_eq_self h.hasType h.ordered]

/-- **Reading a message and sending it again gives a normal form.**  Of a schema whose record types
do not repeat a field name: whatever is read at a type is a value of the type, and its records have
exactly the declared fields; it can be sent again; and what is then sent is read as the same value,
and sent as itself. -/
theorem decode_normal (schema : Schema) (hdistinct : schema.DistinctFields) (type : Ty)
    (htype : type.DistinctFields) (json : Json) (hfinite : json.Finite) (value : Value)
    (h : decode schema type json = .ok value) :
    HasType schema .forbidden type value ∧ value.Ordered ∧
      ∃ normal, encode schema type value = .ok normal ∧ decode schema type normal = .ok value ∧
        (decode schema type normal >>= encode schema type) = .ok normal := by
  have hexact := exact_of_decode hdistinct json htype hfinite h
  obtain ⟨normal, hencode, hdecode⟩ := hexact.exists_encode hdistinct htype
  refine ⟨hexact.hasType, hexact.ordered, normal, hencode, hdecode, ?_⟩
  rw [hdecode]
  exact hencode

/-- A node as somebody else may write it: with members that no type asks for, and with a size that
is written as a float. -/
def looseNode : Json :=
  .object [("_0", .object [("note", .null), ("variant", .string "Leaf")]),
    ("_1", .object [("colour", .number (.int 7)), ("size", .number (.float 1.0))]),
    ("_2", .object [("variant", .string "Leaf")]), ("_3", .null), ("variant", .string "Node")]

/-- The loose node is read as a node, and from there on only its normal form travels. -/
theorem decode_looseNode :
    treeSchema.DistinctFields ∧ (Ty.named "Tree").DistinctFields ∧ looseNode.Finite ∧
    decode treeSchema (.named "Tree") looseNode = .ok (node [("size", .int 1)]) ∧
    HasType treeSchema .forbidden (.named "Tree") (node [("size", .int 1)]) ∧
    ∃ normal, encode treeSchema (.named "Tree") (node [("size", .int 1)]) = .ok normal ∧
      decode treeSchema (.named "Tree") normal = .ok (node [("size", .int 1)]) := by
  have hdistinct : treeSchema.DistinctFields := by decide
  have htype : (Ty.named "Tree").DistinctFields := by decide
  have hfinite : looseNode.Finite := by
    have hcolour : (Json.Number.int 7).toFloat.isFinite := by decide
    have hsize : (Json.Number.float 1.0).toFloat.isFinite := by decide
    have hnull : Json.null.Finite := .leaf rfl (by simp)
    have htag : ∀ tag, (Json.string tag).Finite := fun tag => .leaf rfl (by simp)
    simp [looseNode, hcolour, hsize, hnull, htag]
  have hdecode : decode treeSchema (.named "Tree") looseNode = .ok (node [("size", .int 1)]) := rfl
  obtain ⟨hexact, -, normal, hnormal⟩ :=
    decode_normal treeSchema hdistinct (.named "Tree") htype looseNode hfinite _ hdecode
  exact ⟨hdistinct, htype, hfinite, hdecode, hexact, normal, hnormal.1, hnormal.2.1⟩

end Wire
end ElmWire
