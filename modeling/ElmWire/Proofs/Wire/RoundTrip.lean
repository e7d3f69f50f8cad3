import ElmWire.Proofs.Schema
import ElmWire.Proofs.Wire.Envelope
import ElmWire.Proofs.Wire.Format
import ElmWire.Proofs.Wire.Typing

/-!
# What is sent is what arrives

The decoder undoes the encoder.  A message that the encoder has made is always read, and gives the
value that was sent, without the record fields that its type does not declare; if there are none,
it is the value itself.  And every value of a type can be sent.

* `decode_of_encodes` — the decoder reads what the wire format allows, by induction on how the
  message is put together.
* `encodes_of_hasType` — every value of a type has an encoding.
* `declared_eq_self` — leaving out undeclared fields changes nothing where there are none.

The only condition is that record types do not repeat a field name: of two fields with one name,
only one can be sent.
-/

set_option autoImplicit false
namespace ElmWire.Wire

variable {schema : Schema}

/-! ## Reading the parts of a message -/

/-- An alias decodes as its definition does. -/
theorem decode_hop {name d : String} {type : Ty} {json : Json} {value : Value}
    (hget : schema.get? name = some (.alias d type)) :
    decode schema (.named name) json = .ok value ↔ decode schema type json = .ok value := by
  rw [decode, decode, bind_eq_ok_iff, bind_eq_ok_iff]
  simp only [Schema.shape_named_of_alias hget]

theorem tag?_envelope {ctors : List Ctor} {tag : String} {ctor : Ctor} (arguments : List Json)
    (h : ctor? ctors tag = .ok ctor) :
    tag? ctors (Members.ofList (envelopeMembers tag arguments)) = .ok ctor := by
  rw [tag?, lookup_envelope_tag]
  exact h

theorem decodeShape_unit : decodeShape schema .unit (envelope unitTag []) = .ok .unit := by
  rw [envelope_eq, decodeShape]
  exact bind_eq_ok_iff.2 ⟨_, rfl, bind_eq_ok_iff.2 ⟨_, tag?_envelope [] rfl, rfl⟩⟩

/-- The action that a member of an object is read with. -/
theorem exists_memberDecoder {members : List (String × Json)} {name : String} {json : Json}
    {type : Ty} {value : Value} (hfound : members.lookup name = some json)
    (h : decode schema type json = .ok value) :
    ∃ action, (memberDecoders schema members).lookup name = some action ∧
      action type = .ok value := by
  refine ⟨fun type => decode schema type json, ?_, h⟩
  rw [lookup_memberDecoders, hfound]
  rfl

/-- The arguments of a constructor, with the keys they travel under, read back from an envelope. -/
theorem eachField_envelope (tag : String) {slots : List Slot} {value : Slot → Value}
    (h : ∀ slot ∈ slots, decode schema slot.type slot.json = .ok (value slot)) :
    eachField (memberDecoders schema (Members.ofList (envelopeMembers tag (slots.map Slot.json))))
        ((slots.map Slot.type).mapIdx fun i type => (argKey i, type)) =
      .ok (slots.zipIdx.map fun place => (argKey place.2, value place.1)) := by
  rw [List.mapIdx_eq_zipIdx_map, List.zipIdx_map, List.map_map]
  refine eachField_map_eq_ok fun (slot, i) hmem => ?_
  have hslot : slots[i]? = some slot := List.mem_zipIdx_iff_getElem?.1 hmem
  have harg : (slots.map Slot.json)[i]? = some slot.json := by rw [List.getElem?_map, hslot]; rfl
  exact exists_memberDecoder (lookup_envelope_arg tag harg) (h slot (List.mem_of_getElem? hslot))

theorem decodeShape_tagged_slots {label tag : String} {ctors : List Ctor} {ctor : Ctor}
    {slots : List Slot} {value : Slot → Value} (hctor : ctor? ctors tag = .ok ctor)
    (htypes : ctor.arguments = slots.map Slot.type)
    (h : ∀ slot ∈ slots, decode schema slot.type slot.json = .ok (value slot)) :
    decodeShape schema (.tagged label ctors) (envelope tag (slots.map Slot.json)) =
      .ok (.variant tag (slots.map value)) := by
  rw [envelope_eq, decodeShape, tag?_envelope _ hctor]
  show (eachField _ _ >>= _) = _
  rw [htypes, eachField_envelope tag h]
  show Except.ok (Value.variant ctor.name _) = _
  rw [name_of_ctor? hctor, List.map_map]
  conv_rhs => rw [← List.zipIdx_map_fst 0 slots, List.map_map]
  rfl

theorem decodeShape_tuple_slots {slots : List Slot} {value : Slot → Value}
    (h : ∀ slot ∈ slots, decode schema slot.type slot.json = .ok (value slot)) :
    decodeShape schema (.tuple (slots.map Slot.type)) (.array (slots.map Slot.json)) =
      .ok (.tuple (slots.map value)) := by
  rw [decodeShape, if_neg (by simp), decodeEach_eq, List.zip_map', mapM_map_eq_ok h]
  rfl

theorem decodeShape_record_slots {slots : List (String × Slot)} {value : Slot → Value}
    (hnodup : (slots.map Prod.fst).Nodup)
    (h : ∀ slot ∈ slots, decode schema slot.2.type slot.2.json = .ok (value slot.2)) :
    decodeShape schema (.record (slots.map fun slot => (slot.1, slot.2.type)))
        (.object (Members.ofList (slots.map fun slot => (slot.1, slot.2.json)))) =
      .ok (.record (Members.ofList (slots.map fun slot => (slot.1, value slot.2)))) := by
  have hnames : ((slots.map fun slot => (slot.1, slot.2.json)).map Prod.fst).Nodup := by
    rw [List.map_map]
    exact hnodup
  have hactions : ∀ slot ∈ slots, ∃ action,
      (memberDecoders schema (Members.ofList (slots.map fun slot => (slot.1, slot.2.json)))).lookup
        slot.1 = some action ∧ action slot.2.type = .ok (value slot.2) := by
    intro slot hmem
    refine exists_memberDecoder ?_ (h slot hmem)
    rw [Members.lookup_ofList_of_nodup hnames, Members.lookup_map,
      Members.lookup_eq_some_of_mem hnodup hmem]
    rfl
  rw [decodeShape, eachField_map_eq_ok hactions]
  rfl

/-! ## The declared part of what was sent -/

theorem zipWith_declared_slots (slots : List Slot) :
    List.zipWith (Value.declared schema) (slots.map Slot.type) (slots.map Slot.value) =
      slots.map fun slot => slot.value.declared schema slot.type := by
  rw [List.zipWith_map, List.zipWith_self]

/-- The declared fields of a record, from the fields of its type. -/
theorem ofList_declared_slots {slots : List (String × Slot)} {values : List (String × Value)}
    (hnodup : (slots.map Prod.fst).Nodup) (hordered : Members.Ordered values)
    (hfound : ∀ slot ∈ slots, values.lookup slot.1 = some slot.2.value) :
    Members.ofList (slots.map fun slot => (slot.1, slot.2.value.declared schema slot.2.type)) =
      declaredFields schema (slots.map fun slot => (slot.1, slot.2.type)) values := by
  refine (Members.ordered_ofList _).ext (ordered_declaredFields schema _ hordered) fun key => ?_
  rw [Members.lookup_ofList_of_nodup (by rw [List.map_map]; exact hnodup), lookup_declaredFields,
    Members.lookup_map (fun slot : Slot => slot.value.declared schema slot.type),
    Members.lookup_map Slot.type]
  cases hslot : slots.lookup key with
  | none => rfl
  | some slot =>
    have hvalue := hfound _ (Members.mem_of_lookup_eq_some hslot)
    rw [Option.map_some, Option.map_some, Option.bind_some, hvalue]
    rfl

theorem exists_shape_of_encodes {type : Ty} {value : Value} {json : Json}
    (h : Encodes schema type value json) : ∃ shape, schema.shape type = .ok shape := by
  obtain ⟨shape, hshape, -⟩ := bind_eq_ok_iff.1 (encode_of_encodes h)
  exact ⟨shape, hshape⟩

theorem declared_hop {name d : String} {type : Ty}
    (hget : schema.get? name = some (.alias d type))
    (hshape : ∃ shape, schema.shape type = .ok shape)
    (value : Value) : value.declared schema (.named name) = value.declared schema type := by
  obtain ⟨shape, hshape⟩ := hshape
  apply declared_of_shape_eq
  rw [hshape]
  exact (Schema.shape_named_of_alias hget).2 hshape

/-! ## Reading a whole message -/

/-- The slot arrives as the declared part of what was sent. -/
def Arrives (schema : Schema) (slot : Slot) : Prop :=
  decode schema slot.type slot.json = .ok (slot.value.declared schema slot.type)

theorem decode_tagged {type : Ty} {label tag : String} {ctors : List Ctor} {ctor : Ctor}
    {slots : List Slot} (hshape : schema.shape type = .ok (.tagged label ctors))
    (hctor : ctor? ctors tag = .ok ctor) (htypes : ctor.arguments = slots.map Slot.type)
    (h : ∀ slot ∈ slots, Arrives schema slot) :
    Arrives schema
      ⟨type, .variant tag (slots.map Slot.value), envelope tag (slots.map Slot.json)⟩ := by
  rw [Arrives, decode_of_shape _ hshape, declared_variant hshape hctor, htypes,
    zipWith_declared_slots]
  exact decodeShape_tagged_slots hctor htypes h

theorem decode_tuple {type : Ty} {slots : List Slot}
    (hshape : schema.shape type = .ok (.tuple (slots.map Slot.type)))
    (h : ∀ slot ∈ slots, Arrives schema slot) :
    Arrives schema ⟨type, .tuple (slots.map Slot.value), .array (slots.map Slot.json)⟩ := by
  rw [Arrives, decode_of_shape _ hshape, declared_tuple hshape, zipWith_declared_slots]
  exact decodeShape_tuple_slots h

theorem decode_record {slots : List (String × Slot)} {values : List (String × Value)}
    (hnodup : (slots.map Prod.fst).Nodup) (hordered : Members.Ordered values)
    (hfound : ∀ slot ∈ slots, values.lookup slot.1 = some slot.2.value)
    (h : ∀ slot ∈ slots, Arrives schema slot.2) :
    Arrives schema ⟨.record (slots.map fun slot => (slot.1, slot.2.type)), .record values,
      .object (Members.ofList (slots.map fun slot => (slot.1, slot.2.json)))⟩ := by
  rw [Arrives, decode_of_shape _ (Schema.shape_of_view rfl),
    declared_record (Schema.shape_of_view rfl), ← ofList_declared_slots hnodup hordered hfound]
  exact @decodeShape_record_slots schema slots (fun slot => slot.value.declared schema slot.type)
    hnodup h

/-- **The decoder reads what the wire format allows.** -/
theorem decode_of_encodes (hdistinct : schema.DistinctFields) {type : Ty} {value : Value}
    {json : Json} (h : Encodes schema type value json) (htype : type.DistinctFields)
    (hordered : value.Ordered) : decode schema type json = .ok (value.declared schema type) := by
  induction h with
  | unit =>
    rw [decode_of_shape _ (Schema.shape_of_view rfl), decodeShape_unit, Value.declared.eq_def,
      Schema.shape_of_view rfl]
  | bool | string | float =>
    rw [decode_of_shape _ (Schema.shape_of_view rfl), decodeShape, Value.declared.eq_def,
      Schema.shape_of_view rfl]
    rfl
  | int hsafe =>
    rw [decode_of_shape _ (Schema.shape_of_view rfl), decodeShape, Value.declared.eq_def,
      Schema.shape_of_view rfl, safeInt?]
    show (if _ then _ else _) >>= _ = _
    rw [if_pos hsafe]
    rfl
  | char c =>
    rw [decode_of_shape _ (Schema.shape_of_view rfl), decodeShape, Value.declared.eq_def,
      Schema.shape_of_view rfl, onlyChar?, Char.toString_eq_singleton, String.toList_singleton]
    rfl
  | @list item slots _ ih =>
    have hitems : ∀ slot ∈ slots,
        decode schema item slot.2 = .ok (slot.1.declared schema item) := fun slot hmem =>
      ih slot hmem htype (hordered.part (List.mem_map_of_mem hmem))
    rw [decode_of_shape _ (Schema.shape_of_view rfl), decodeShape, decodeItems_eq,
      mapM_map_eq_ok hitems, declared_list (Schema.shape_of_view rfl), List.map_map]
    rfl
  | @pair a b _ _ iha ihb =>
    have ha : Arrives schema a := iha (fun fields hmem => htype fields (by simp [Ty.records, hmem]))
      (hordered.part (by simp [Value.parts]))
    have hb : Arrives schema b := ihb (fun fields hmem => htype fields (by simp [Ty.records, hmem]))
      (hordered.part (by simp [Value.parts]))
    exact @decode_tuple schema (.pair a.type b.type) [a, b] (Schema.shape_of_view rfl)
      (by simp [ha, hb])
  | @triple a b c _ _ _ iha ihb ihc =>
    have ha : Arrives schema a := iha (fun fields hmem => htype fields (by simp [Ty.records, hmem]))
      (hordered.part (by simp [Value.parts]))
    have hb : Arrives schema b := ihb (fun fields hmem => htype fields (by simp [Ty.records, hmem]))
      (hordered.part (by simp [Value.parts]))
    have hc : Arrives schema c := ihc (fun fields hmem => htype fields (by simp [Ty.records, hmem]))
      (hordered.part (by simp [Value.parts]))
    exact @decode_tuple schema (.triple a.type b.type c.type) [a, b, c] (Schema.shape_of_view rfl)
      (by simp [ha, hb, hc])
  | @record slots values hfound _ ih =>
    have hnodup : (slots.map Prod.fst).Nodup := by
      have hnames := htype _ (List.mem_cons_self ..)
      rwa [List.map_map] at hnames
    have hslots : ∀ slot ∈ slots, Arrives schema slot.2 := by
      intro slot hmem
      have hfield : (slot.1, slot.2.type) ∈ slots.map fun slot => (slot.1, slot.2.type) :=
        List.mem_map_of_mem hmem
      have hpart : slot.2.value ∈ (Value.record values).parts :=
        List.mem_map.2 ⟨_, Members.mem_of_lookup_eq_some (hfound slot hmem), rfl⟩
      exact ih slot hmem (fun fields hfields =>
        htype fields (List.mem_cons_of_mem _ (records_subset_fieldRecords hfield hfields)))
        (hordered.part hpart)
    exact decode_record hnodup hordered.fields hfound hslots
  | @just slot _ ih =>
    have hslot : Arrives schema slot := ih htype (hordered.part (by simp [Value.parts]))
    exact @decode_tagged schema (.maybe slot.type) _ _ _ _ [slot] (Schema.shape_of_view rfl) rfl rfl
      (by simp [hslot])
  | nothing item =>
    exact @decode_tagged schema (.maybe item) _ _ _ _ [] (Schema.shape_of_view rfl) rfl rfl
      (by simp)
  | @ok error slot _ ih =>
    have hslot : Arrives schema slot :=
      ih (fun fields hmem => htype fields (List.mem_append_right _ hmem))
        (hordered.part (by simp [Value.parts]))
    exact @decode_tagged schema (.result error slot.type) _ _ _ _ [slot] (Schema.shape_of_view rfl)
      rfl rfl (by simp [hslot])
  | @err success slot _ ih =>
    have hslot : Arrives schema slot :=
      ih (fun fields hmem => htype fields (List.mem_append_left _ hmem))
        (hordered.part (by simp [Value.parts]))
    exact @decode_tagged schema (.result slot.type success) _ _ _ _ [slot]
      (Schema.shape_of_view rfl)
      rfl rfl (by simp [hslot])
  | hop hget h ih =>
    rw [declared_hop hget (exists_shape_of_encodes h)]
    refine (decode_hop hget).2 (ih ?_ hordered)
    exact fun fields hmem => hdistinct fields (Schema.records_subset_of_alias hget hmem)
  | @custom name d tag ctors ctor slots hget hctor htypes _ ih =>
    refine @decode_tagged schema (.named name) _ _ _ _ slots (Schema.shape_of_custom hget) hctor
      htypes
      fun slot hmem => ih slot hmem (fun fields hfields => hdistinct fields ?_)
        (hordered.part (List.mem_map_of_mem hmem))
    have htype : slot.type ∈ ctor.arguments := htypes ▸ List.mem_map_of_mem hmem
    exact Schema.records_subset_of_custom hget (mem_of_ctor? hctor) htype hfields

/-! ## Which values can be sent -/

theorem isSafeInt_iff {n : Int} :
    isSafeInt n = true ↔ -9007199254740991 ≤ n ∧ n ≤ 9007199254740991 := by
  rw [isSafeInt, Bool.and_eq_true]
  exact and_congr decide_eq_true_iff decide_eq_true_iff

/-- Every value of a type has an encoding. -/
theorem encodes_of_hasType {extras : Extras} {type : Ty} {value : Value}
    (h : HasType schema extras type value) : ∃ json, Encodes schema type value json := by
  induction h with
  | unit => exact ⟨_, .unit⟩
  | bool b => exact ⟨_, .bool b⟩
  | int hlow hhigh => exact ⟨_, .int (isSafeInt_iff.2 ⟨hlow, hhigh⟩)⟩
  | float hfinite => exact ⟨_, .float hfinite⟩
  | char c => exact ⟨_, .char c⟩
  | string s => exact ⟨_, .string s⟩
  | list _ ih =>
    obtain ⟨slots, rfl, hslots⟩ := exists_pairs_of_forall_exists ih
    exact ⟨_, .list hslots⟩
  | @pair first second v w _ _ ihv ihw =>
    obtain ⟨json, hv⟩ := ihv
    obtain ⟨json', hw⟩ := ihw
    exact ⟨_, @Encodes.pair schema ⟨first, v, json⟩ ⟨second, w, json'⟩ hv hw⟩
  | @triple first second third u v w _ _ _ ihu ihv ihw =>
    obtain ⟨json, hu⟩ := ihu
    obtain ⟨json', hv⟩ := ihv
    obtain ⟨json'', hw⟩ := ihw
    exact ⟨_, @Encodes.triple schema ⟨first, u, json⟩ ⟨second, v, json'⟩ ⟨third, w, json''⟩
      hu hv hw⟩
  | @record fields values hfound _ _ ih =>
    have hexists : ∀ field ∈ fields, ∃ slot : Slot, field.2 = slot.type ∧
        values.lookup field.1 = some slot.value ∧
          Encodes schema slot.type slot.value slot.json := by
      intro field hmem
      obtain ⟨value, hvalue⟩ := hfound field hmem
      obtain ⟨json, hjson⟩ := ih field hmem value hvalue
      exact ⟨⟨field.2, value, json⟩, rfl, hvalue, hjson⟩
    obtain ⟨pairs, rfl, hpairs⟩ := exists_pairs_of_forall_exists hexists
    have hfields : pairs.map Prod.fst =
        (pairs.map fun pair => (pair.1.1, pair.2)).map fun slot => (slot.1, slot.2.type) := by
      rw [List.map_map]
      exact List.map_congr_left fun pair hmem => Prod.ext rfl (hpairs pair hmem).1
    rw [hfields]
    refine ⟨_, .record ?_ ?_⟩
    · exact List.forall_mem_map.2 fun pair hmem => (hpairs pair hmem).2.1
    · exact List.forall_mem_map.2 fun pair hmem => (hpairs pair hmem).2.2
  | @just item v _ ih =>
    obtain ⟨json, hv⟩ := ih
    exact ⟨_, @Encodes.just schema ⟨item, v, json⟩ hv⟩
  | nothing item => exact ⟨_, .nothing item⟩
  | @ok error success v _ ih =>
    obtain ⟨json, hv⟩ := ih
    exact ⟨_, @Encodes.ok schema error ⟨success, v, json⟩ hv⟩
  | @err error success v _ ih =>
    obtain ⟨json, hv⟩ := ih
    exact ⟨_, @Encodes.err schema success ⟨error, v, json⟩ hv⟩
  | hop hget _ ih =>
    obtain ⟨json, h⟩ := ih
    exact ⟨json, .hop hget h⟩
  | @custom name d ctors ctor values hget hctor hlength _ ih =>
    obtain ⟨pairs, hzip, hpairs⟩ := exists_pairs_of_forall_exists ih
    have htypes : ctor.arguments = (pairs.map fun pair => Slot.mk pair.1.1 pair.1.2 pair.2).map
        Slot.type := by
      rw [← List.map_fst_zip hlength.le, hzip, List.map_map, List.map_map]
      rfl
    have hvalues : values = (pairs.map fun pair => Slot.mk pair.1.1 pair.1.2 pair.2).map
        Slot.value := by
      rw [← List.map_snd_zip hlength.ge, hzip, List.map_map, List.map_map]
      rfl
    rw [hvalues]
    refine ⟨_, .custom hget (ctor?_eq_ok_iff.2 hctor) htypes ?_⟩
    exact List.forall_mem_map.2 hpairs

/-- Only values of a type have an encoding. -/
theorem hasType_of_encodes {type : Ty} {value : Value} {json : Json}
    (h : Encodes schema type value json) : HasType schema .allowed type value := by
  induction h with
  | unit => exact .unit
  | bool b => exact .bool b
  | int hsafe => exact .int (isSafeInt_iff.1 hsafe).1 (isSafeInt_iff.1 hsafe).2
  | float hfinite => exact .float hfinite
  | char c => exact .char c
  | string s => exact .string s
  | list _ ih => exact .list (List.forall_mem_map.2 ih)
  | pair _ _ iha ihb => exact .pair iha ihb
  | triple _ _ _ iha ihb ihc => exact .triple iha ihb ihc
  | record hfound _ ih =>
    refine .record ?_ ?_ (by simp)
    · exact List.forall_mem_map.2 fun slot hmem => ⟨_, hfound slot hmem⟩
    · refine List.forall_mem_map.2 fun slot hmem value hvalue => ?_
      cases (hfound slot hmem).symm.trans hvalue
      exact ih slot hmem
  | just _ ih => exact .just ih
  | nothing item => exact .nothing item
  | ok error _ ih => exact .ok error ih
  | err success _ ih => exact .err success ih
  | hop hget _ ih => exact .hop hget ih
  | @custom name d tag ctors ctor slots hget hctor htypes _ ih =>
    cases name_of_ctor? hctor
    refine .custom hget (ctor?_eq_ok_iff.1 hctor) (by simp [htypes]) ?_
    rw [htypes, List.zip_map']
    exact List.forall_mem_map.2 ih

theorem encode_ok_iff_hasType {type : Ty} {value : Value} :
    (∃ json, encode schema type value = .ok json) ↔ HasType schema .allowed type value := by
  simp only [encode_eq_ok_iff]
  exact ⟨fun ⟨_, h⟩ => hasType_of_encodes h, encodes_of_hasType⟩

/-! ## Values without undeclared fields -/

theorem zipWith_eq_right {α β : Type} {f : α → β → β} {as : List α} {bs : List β}
    (hlength : as.length = bs.length) (h : ∀ pair ∈ as.zip bs, f pair.1 pair.2 = pair.2) :
    List.zipWith f as bs = bs := by
  calc List.zipWith f as bs = (as.zip bs).map fun pair => f pair.1 pair.2 := by
        rw [List.map_zip_eq_zipWith]; rfl
    _ = (as.zip bs).map Prod.snd := List.map_congr_left h
    _ = bs := List.map_snd_zip hlength.ge

theorem declared_unary {type item : Ty} {label tag : String} {ctors : List Ctor} {value : Value}
    (hshape : schema.shape type = .ok (.tagged label ctors))
    (hctor : ctor? ctors tag = .ok ⟨tag, [item]⟩) (h : value.declared schema item = value) :
    (Value.variant tag [value]).declared schema type = .variant tag [value] := by
  rw [declared_variant hshape hctor, List.zipWith_cons_cons, h]
  rfl

/-- **Nothing is left out of a value without undeclared fields.** -/
theorem declared_eq_self {type : Ty} {value : Value} (h : HasType schema .forbidden type value)
    (hordered : value.Ordered) : value.declared schema type = value := by
  induction h with
  | unit | bool | int | float | char | string =>
    rw [Value.declared.eq_def, Schema.shape_of_view rfl]
  | @list item values _ ih =>
    have hitems : ∀ value ∈ values, value.declared schema item = id value := fun value hmem =>
      ih value hmem (hordered.part hmem)
    rw [declared_list (Schema.shape_of_view rfl), List.map_congr_left hitems, List.map_id]
  | pair _ _ ihv ihw =>
    rw [declared_tuple (Schema.shape_of_view rfl)]
    simp only [List.zipWith_cons_cons, List.zipWith_nil_right,
      ihv (hordered.part (by simp [Value.parts])), ihw (hordered.part (by simp [Value.parts]))]
  | triple _ _ _ ihu ihv ihw =>
    rw [declared_tuple (Schema.shape_of_view rfl)]
    simp only [List.zipWith_cons_cons, List.zipWith_nil_right,
      ihu (hordered.part (by simp [Value.parts])), ihv (hordered.part (by simp [Value.parts])),
      ihw (hordered.part (by simp [Value.parts]))]
  | @record fields values _ _ hextras ih =>
    rw [declared_record (Schema.shape_of_view rfl)]
    refine congrArg Value.record ((ordered_declaredFields schema fields hordered.fields).ext
      hordered.fields fun key => ?_)
    rw [lookup_declaredFields]
    cases hvalue : values.lookup key with
    | none => cases fields.lookup key <;> rfl
    | some value =>
      have hmem := Members.mem_of_lookup_eq_some hvalue
      obtain ⟨type, htype⟩ := Members.exists_lookup_of_mem_names (hextras rfl _ hmem)
      rw [htype]
      refine congrArg some (ih (key, type) (Members.mem_of_lookup_eq_some htype) value hvalue ?_)
      exact hordered.part (List.mem_map_of_mem hmem)
  | just _ ih | ok _ _ ih | err _ _ ih =>
    exact declared_unary (Schema.shape_of_view rfl) rfl (ih (hordered.part (List.mem_cons_self ..)))
  | nothing item =>
    have hctor : ctor? (maybeCtors item) nothing = .ok ⟨nothing, []⟩ := rfl
    exact declared_variant (Schema.shape_of_view rfl) hctor []
  | hop hget h ih =>
    obtain ⟨json, hencodes⟩ := encodes_of_hasType h
    rw [declared_hop hget (exists_shape_of_encodes hencodes), ih hordered]
  | custom hget hctor hlength _ ih =>
    rw [declared_variant (Schema.shape_of_custom hget) (ctor?_eq_ok_iff.2 hctor),
      zipWith_eq_right hlength]
    exact fun pair hmem => ih pair hmem (hordered.part (List.of_mem_zip hmem).2)

/-! ## The round trip -/

/-- **What is sent arrives.**  Of a schema whose record types do not repeat a field name:

* whatever is encoded at a type is decoded at that type, to the value that was encoded without the
  fields that the type does not declare, and to the value itself if it has none;
* exactly the values of a type can be encoded;
* and both hold of the codec of every definition, recursive ones among them. -/
theorem decode_encode (schema : Schema) (hdistinct : schema.DistinctFields) :
    (∀ (type : Ty) (value : Value) (json : Json), type.DistinctFields → value.Ordered →
      encode schema type value = .ok json →
        decode schema type json = .ok (value.declared schema type) ∧
        (HasType schema .forbidden type value → decode schema type json = .ok value)) ∧
    (∀ (type : Ty) (value : Value),
      (∃ json, encode schema type value = .ok json) ↔ HasType schema .allowed type value) ∧
    (∀ (name : String) (value : Value) (json : Json), value.Ordered →
      encodeNamed schema name value = .ok json →
        decodeNamed schema name json = .ok (value.declared schema (.named name)) ∧
        (HasType schema .forbidden (.named name) value →
          decodeNamed schema name json = .ok value)) ∧
    ∀ (name : String) (value : Value),
      (∃ json, encodeNamed schema name value = .ok json) ↔
        HasType schema .allowed (.named name) value := by
  have hround : ∀ (type : Ty) (value : Value) (json : Json), type.DistinctFields → value.Ordered →
      encode schema type value = .ok json →
        decode schema type json = .ok (value.declared schema type) ∧
        (HasType schema .forbidden type value → decode schema type json = .ok value) := by
    intro type value json htype hordered hencode
    have hdecode := decode_of_encodes hdistinct (encode_eq_ok_iff.1 hencode) htype hordered
    refine ⟨hdecode, fun hexact => ?_⟩
    rw [hdecode, declared_eq_self hexact hordered]
  refine ⟨hround, fun _ _ => encode_ok_iff_hasType, fun name value json hordered hencode => ?_,
    fun _ _ => encode_ok_iff_hasType⟩
  -- A reference has no record type of its own.
  have hname : (Ty.named name).DistinctFields := fun fields hmem => by simp [Ty.records] at hmem
  exact hround (.named name) value json hname hordered hencode

/-- A tree of one node, whose record has the given fields. -/
def node (fields : List (String × Value)) : Value :=
  .variant "Node" [.variant "Leaf" [], .record fields, .variant "Leaf" []]

/-- A node whose record has a field that is not declared arrives without it. -/
theorem decode_encode_tree :
    treeSchema.DistinctFields ∧ (node [("colour", .int 7), ("size", .int 1)]).Ordered ∧
    ∃ json, encodeNamed treeSchema "Tree" (node [("colour", .int 7), ("size", .int 1)]) = .ok json ∧
      decodeNamed treeSchema "Tree" json = .ok (node [("size", .int 1)]) := by
  have hdistinct : treeSchema.DistinctFields := by decide
  have hfields : Members.Ordered [("colour", Value.int 7), ("size", Value.int 1)] := by decide
  have hordered : (node [("colour", .int 7), ("size", .int 1)]).Ordered := by simp [node, hfields]
  obtain ⟨json, hjson⟩ : ∃ json, encodeNamed treeSchema "Tree"
      (node [("colour", .int 7), ("size", .int 1)]) = .ok json := ⟨_, rfl⟩
  refine ⟨hdistinct, hordered, json, hjson, ?_⟩
  exact ((decode_encode treeSchema hdistinct).2.2.1 "Tree" _ json hordered hjson).1

end ElmWire.Wire
