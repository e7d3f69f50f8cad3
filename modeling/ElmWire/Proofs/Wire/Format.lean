import ElmWire.Proofs.Parts
import ElmWire.Proofs.Wire.Codec
import ElmWire.Proofs.Wire.Resolution

/-!
# The wire format as a relation

`Encodes schema type value json` says that a value of a type travels as a JSON value.  It has one
rule for each form of type, and one rule for following each kind of definition, so that a proof
about the format is an induction on how a message is put together: no shapes, no bound on aliases,
no order in which errors are looked for.

`encode_eq_ok_iff` is the link to the codec: **the encoder succeeds exactly on what the relation
allows, and with that result**.

Several places next to each other, with a type, a value and JSON each, are a list of `Slot`s.
-/

set_option autoImplicit false
namespace ElmWire.Wire

/-- A place in a message: what type it has, and what stands there on either side. -/
structure Slot where
  /-- The type of the place. -/
  type : Ty
  /-- The value there. -/
  value : Value
  /-- The JSON that the value travels as. -/
  json : Json

/-- A value of a type travels as a JSON value. -/
inductive Encodes (schema : Schema) : Ty → Value → Json → Prop
  | unit : Encodes schema .unit .unit (envelope unitTag [])
  | bool (b : Bool) : Encodes schema .bool (.bool b) (.bool b)
  | int {n : Int} (h : isSafeInt n) : Encodes schema .int (.int n) (.number (.int n))
  | float {x : Float} (h : x.isFinite) : Encodes schema .float (.float x) (.number (.float x))
  | char (c : Char) : Encodes schema .char (.char c) (.string c.toString)
  | string (s : String) : Encodes schema .string (.string s) (.string s)
  | list {item : Ty} {slots : List (Value × Json)}
      (h : ∀ slot ∈ slots, Encodes schema item slot.1 slot.2) :
      Encodes schema (.list item) (.list (slots.map Prod.fst)) (.array (slots.map Prod.snd))
  | pair {a b : Slot} (ha : Encodes schema a.type a.value a.json)
      (hb : Encodes schema b.type b.value b.json) :
      Encodes schema (.pair a.type b.type) (.tuple [a.value, b.value]) (.array [a.json, b.json])
  | triple {a b c : Slot} (ha : Encodes schema a.type a.value a.json)
      (hb : Encodes schema b.type b.value b.json) (hc : Encodes schema c.type c.value c.json) :
      Encodes schema (.triple a.type b.type c.type) (.tuple [a.value, b.value, c.value])
        (.array [a.json, b.json, c.json])
  /-- A record has a value for every field of its type, and may have others. -/
  | record {slots : List (String × Slot)} {values : List (String × Value)}
      (hfound : ∀ slot ∈ slots, values.lookup slot.1 = some slot.2.value)
      (h : ∀ slot ∈ slots, Encodes schema slot.2.type slot.2.value slot.2.json) :
      Encodes schema (.record (slots.map fun slot => (slot.1, slot.2.type))) (.record values)
        (.object (Members.ofList (slots.map fun slot => (slot.1, slot.2.json))))
  | just {slot : Slot} (h : Encodes schema slot.type slot.value slot.json) :
      Encodes schema (.maybe slot.type) (.variant just [slot.value]) (envelope just [slot.json])
  | nothing (item : Ty) : Encodes schema (.maybe item) (.variant nothing []) (envelope nothing [])
  | ok (error : Ty) {slot : Slot} (h : Encodes schema slot.type slot.value slot.json) :
      Encodes schema (.result error slot.type) (.variant ok [slot.value]) (envelope ok [slot.json])
  | err (success : Ty) {slot : Slot} (h : Encodes schema slot.type slot.value slot.json) :
      Encodes schema (.result slot.type success) (.variant err [slot.value])
        (envelope err [slot.json])
  | hop {name d : String} {type : Ty} {value : Value} {json : Json}
      (hget : schema.get? name = some (.alias d type)) (h : Encodes schema type value json) :
      Encodes schema (.named name) value json
  | custom {name d tag : String} {ctors : List Ctor} {ctor : Ctor} {slots : List Slot}
      (hget : schema.get? name = some (.custom d ctors)) (hctor : ctor? ctors tag = .ok ctor)
      (htypes : ctor.arguments = slots.map Slot.type)
      (h : ∀ slot ∈ slots, Encodes schema slot.type slot.value slot.json) :
      Encodes schema (.named name) (.variant tag (slots.map Slot.value))
        (envelope tag (slots.map Slot.json))

/-! ## The encoder produces nothing else -/

theorem exists_slots_of_encodeEach {schema : Schema} {types : List Ty} {values : List Value}
    {items : List Json} (hlength : types.length = values.length)
    (h : encodeEach schema types values = .ok items) :
    ∃ slots : List Slot, types = slots.map Slot.type ∧ values = slots.map Slot.value ∧
      items = slots.map Slot.json ∧
      ∀ slot ∈ slots, encode schema slot.type slot.value = .ok slot.json := by
  rw [encodeEach_eq, mapM_eq_ok_iff] at h
  obtain ⟨pairs, hpairs, hitems, hencode⟩ := exists_pairs_of_forall₂ h
  refine ⟨pairs.map fun pair => ⟨pair.1.1, pair.1.2, pair.2⟩, ?_, ?_, ?_, ?_⟩
  · rw [← List.map_fst_zip hlength.le, hpairs, List.map_map, List.map_map]
    rfl
  · rw [← List.map_snd_zip hlength.ge, hpairs, List.map_map, List.map_map]
    rfl
  · rw [hitems, List.map_map]
    rfl
  · intro slot hmem
    obtain ⟨pair, hpair, rfl⟩ := List.mem_map.1 hmem
    exact hencode pair hpair

theorem exists_slots_of_eachField {schema : Schema} {fields : List (String × Ty)}
    {values : List (String × Value)} {members : List (String × Json)}
    (h : eachField (fieldEncoders schema values) fields = .ok members) :
    ∃ slots : List (String × Slot), fields = slots.map (fun slot => (slot.1, slot.2.type)) ∧
      members = slots.map (fun slot => (slot.1, slot.2.json)) ∧
      ∀ slot ∈ slots, values.lookup slot.1 = some slot.2.value ∧
        encode schema slot.2.type slot.2.value = .ok slot.2.json := by
  rw [eachField_eq_ok_iff] at h
  induction h with
  | nil => exact ⟨[], rfl, rfl, by simp⟩
  | @cons field member fields members hfirst _ ih =>
    obtain ⟨slots, rfl, rfl, hslots⟩ := ih
    obtain ⟨hname, action, haction, hjson⟩ := hfirst
    rw [lookup_fieldEncoders, Option.map_eq_some_iff] at haction
    obtain ⟨value, hvalue, rfl⟩ := haction
    refine ⟨(field.1, ⟨field.2, value, member.2⟩) :: slots, rfl, ?_, ?_⟩
    · rw [List.map_cons, ← hname]
    · exact List.forall_mem_cons.2 ⟨⟨hvalue, hjson⟩, hslots⟩

theorem ctor?_eq_ok_iff {ctors : List Ctor} {tag : String} {ctor : Ctor} :
    ctor? ctors tag = .ok ctor ↔ ctors.find? (fun ctor => ctor.name = tag) = some ctor := by
  rw [ctor?]
  cases ctors.find? (fun ctor => ctor.name = tag) <;> simp

theorem name_of_ctor? {ctors : List Ctor} {tag : String} {ctor : Ctor}
    (h : ctor? ctors tag = .ok ctor) : ctor.name = tag := by
  simpa using List.find?_some (ctor?_eq_ok_iff.1 h)

theorem mem_of_ctor? {ctors : List Ctor} {tag : String} {ctor : Ctor}
    (h : ctor? ctors tag = .ok ctor) : ctor ∈ ctors :=
  List.mem_of_find?_eq_some (ctor?_eq_ok_iff.1 h)

theorem exists_tag_of_tag? {ctors : List Ctor} {members : List (String × Json)} {ctor : Ctor}
    (h : tag? ctors members = .ok ctor) : ∃ tag, ctor? ctors tag = .ok ctor := by
  rw [tag?] at h
  split at h
  · cases h
  · exact ⟨_, h⟩
  · cases h

theorem ctor?_maybeCtors {item : Ty} {tag : String} {ctor : Ctor}
    (h : ctor? (maybeCtors item) tag = .ok ctor) :
    tag = just ∧ ctor = ⟨just, [item]⟩ ∨ tag = nothing ∧ ctor = ⟨nothing, []⟩ := by
  have hname := name_of_ctor? h
  have hmem := mem_of_ctor? h
  simp only [maybeCtors, List.mem_cons, List.not_mem_nil, or_false] at hmem
  rcases hmem with rfl | rfl
  · exact .inl ⟨hname.symm, rfl⟩
  · exact .inr ⟨hname.symm, rfl⟩

theorem ctor?_resultCtors {error success : Ty} {tag : String} {ctor : Ctor}
    (h : ctor? (resultCtors error success) tag = .ok ctor) :
    tag = ok ∧ ctor = ⟨ok, [success]⟩ ∨ tag = err ∧ ctor = ⟨err, [error]⟩ := by
  have hname := name_of_ctor? h
  have hmem := mem_of_ctor? h
  simp only [resultCtors, List.mem_cons, List.not_mem_nil, or_false] at hmem
  rcases hmem with rfl | rfl
  · exact .inl ⟨hname.symm, rfl⟩
  · exact .inr ⟨hname.symm, rfl⟩

/-- What the encoder does with a tagged value. -/
theorem exists_slots_of_encodeShape_tagged {schema : Schema} {label : String} {ctors : List Ctor}
    {value : Value} {json : Json} (h : encodeShape schema (.tagged label ctors) value = .ok json) :
    ∃ (tag : String) (ctor : Ctor) (slots : List Slot),
      ctor? ctors tag = .ok ctor ∧ ctor.arguments = slots.map Slot.type ∧
      value = .variant tag (slots.map Slot.value) ∧ json = envelope tag (slots.map Slot.json) ∧
      ∀ slot ∈ slots, encode schema slot.type slot.value = .ok slot.json := by
  cases value with
  | variant tag values =>
    rw [encodeShape] at h
    obtain ⟨ctor, hctor, h⟩ := bind_eq_ok_iff.1 h
    split at h
    · cases h
    · next hlength =>
      obtain ⟨items, hitems, h⟩ := bind_eq_ok_iff.1 h
      obtain ⟨slots, htypes, rfl, rfl, hslots⟩ :=
        exists_slots_of_encodeEach (not_not.1 hlength) hitems
      exact ⟨tag, ctor, slots, hctor, htypes, rfl, (Except.ok.inj h).symm, hslots⟩
  | _ => simp [encodeShape, throw, throwThe, MonadExceptOf.throw] at h

/-- What the encoder does with a tuple. -/
theorem exists_slots_of_encodeShape_tuple {schema : Schema} {types : List Ty} {value : Value}
    {json : Json} (h : encodeShape schema (.tuple types) value = .ok json) :
    ∃ slots : List Slot, types = slots.map Slot.type ∧ value = .tuple (slots.map Slot.value) ∧
      json = .array (slots.map Slot.json) ∧
      ∀ slot ∈ slots, encode schema slot.type slot.value = .ok slot.json := by
  cases value with
  | tuple values =>
    rw [encodeShape] at h
    split at h
    · cases h
    · next hlength =>
      obtain ⟨items, hitems, h⟩ := bind_eq_ok_iff.1 h
      obtain ⟨slots, htypes, rfl, rfl, hslots⟩ :=
        exists_slots_of_encodeEach (not_not.1 hlength) hitems
      exact ⟨slots, htypes, rfl, (Except.ok.inj h).symm, hslots⟩
  | _ => simp [encodeShape, throw, throwThe, MonadExceptOf.throw] at h

theorem encodes_scalar {schema : Schema} {type : Ty} {shape : Shape} {value : Value} {json : Json}
    (hview : type.view = .shape shape)
    (hscalar : type = .unit ∨ type = .bool ∨ type = .int ∨ type = .float ∨ type = .char ∨
      type = .string)
    (h : encodeShape schema shape value = .ok json) : Encodes schema type value json := by
  rcases hscalar with rfl | rfl | rfl | rfl | rfl | rfl <;> cases hview <;>
    cases value <;> simp [encodeShape, pure, Except.pure, throw, throwThe, MonadExceptOf.throw] at h
  · exact h ▸ .unit
  · exact h ▸ .bool _
  · split at h
    · next hsafe => cases h; exact .int hsafe
    · cases h
  · split at h
    · next hfinite => cases h; exact .float hfinite
    · cases h
  · exact h ▸ .char _
  · exact h ▸ .string _

theorem encodes_of_encodeShape {schema : Schema} {type : Ty} {shape : Shape} {value : Value}
    {json : Json} (hview : type.view = .shape shape)
    (h : encodeShape schema shape value = .ok json)
    (ih : ∀ part ∈ value.parts, ∀ type json, encode schema type part = .ok json →
      Encodes schema type part json) : Encodes schema type value json := by
  cases type with
  | named name => simp [Ty.view] at hview
  | list item =>
    cases hview
    cases value with
    | list values =>
      rw [encodeShape] at h
      obtain ⟨items, hitems, h⟩ := bind_eq_ok_iff.1 h
      rw [encodeItems_eq, mapM_eq_ok_iff] at hitems
      obtain ⟨slots, rfl, rfl, hslots⟩ := exists_pairs_of_forall₂ hitems
      cases h
      exact .list fun slot hmem => ih _ (List.mem_map_of_mem hmem) _ _ (hslots slot hmem)
    | _ => simp [encodeShape, throw, throwThe, MonadExceptOf.throw] at h
  | pair first second =>
    cases hview
    obtain ⟨slots, htypes, rfl, rfl, hslots⟩ := exists_slots_of_encodeShape_tuple h
    obtain ⟨a, _, rfl, rfl, hrest⟩ := List.map_eq_cons_iff.1 htypes.symm
    obtain ⟨b, rfl, rfl⟩ := List.map_eq_singleton_iff.1 hrest
    exact .pair (ih _ (by simp [Value.parts]) _ _ (hslots a (by simp)))
      (ih _ (by simp [Value.parts]) _ _ (hslots b (by simp)))
  | triple first second third =>
    cases hview
    obtain ⟨slots, htypes, rfl, rfl, hslots⟩ := exists_slots_of_encodeShape_tuple h
    obtain ⟨a, _, rfl, rfl, hrest⟩ := List.map_eq_cons_iff.1 htypes.symm
    obtain ⟨b, _, rfl, rfl, hlast⟩ := List.map_eq_cons_iff.1 hrest
    obtain ⟨c, rfl, rfl⟩ := List.map_eq_singleton_iff.1 hlast
    exact .triple (ih _ (by simp [Value.parts]) _ _ (hslots a (by simp)))
      (ih _ (by simp [Value.parts]) _ _ (hslots b (by simp)))
      (ih _ (by simp [Value.parts]) _ _ (hslots c (by simp)))
  | record fields =>
    cases hview
    cases value with
    | record values =>
      rw [encodeShape] at h
      obtain ⟨members, hmembers, h⟩ := bind_eq_ok_iff.1 h
      obtain ⟨slots, rfl, rfl, hslots⟩ := exists_slots_of_eachField hmembers
      cases h
      refine .record (fun slot hmem => (hslots slot hmem).1) fun slot hmem => ?_
      obtain ⟨hfound, hjson⟩ := hslots slot hmem
      exact ih _ (List.mem_map.2 ⟨_, Members.mem_of_lookup_eq_some hfound, rfl⟩) _ _ hjson
    | _ => simp [encodeShape, throw, throwThe, MonadExceptOf.throw] at h
  | maybe item =>
    cases hview
    obtain ⟨tag, ctor, slots, hctor, htypes, rfl, rfl, hslots⟩ :=
      exists_slots_of_encodeShape_tagged h
    obtain ⟨rfl, rfl⟩ | ⟨rfl, rfl⟩ := ctor?_maybeCtors hctor
    · obtain ⟨a, rfl, rfl⟩ := List.map_eq_singleton_iff.1 htypes.symm
      exact .just (ih _ (by simp [Value.parts]) _ _ (hslots a (by simp)))
    · cases List.map_eq_nil_iff.1 htypes.symm
      exact .nothing item
  | result error success =>
    cases hview
    obtain ⟨tag, ctor, slots, hctor, htypes, rfl, rfl, hslots⟩ :=
      exists_slots_of_encodeShape_tagged h
    obtain ⟨rfl, rfl⟩ | ⟨rfl, rfl⟩ := ctor?_resultCtors hctor
    · obtain ⟨a, rfl, rfl⟩ := List.map_eq_singleton_iff.1 htypes.symm
      exact .ok error (ih _ (by simp [Value.parts]) _ _ (hslots a (by simp)))
    · obtain ⟨a, rfl, rfl⟩ := List.map_eq_singleton_iff.1 htypes.symm
      exact .err success (ih _ (by simp [Value.parts]) _ _ (hslots a (by simp)))
  | _ => exact encodes_scalar hview (by simp) h

theorem encodes_of_encode {schema : Schema} (value : Value) :
    ∀ {type : Ty} {json : Json}, encode schema type value = .ok json →
      Encodes schema type value json := by
  induction value using Value.induction_parts with
  | h value ih =>
    intro type json h
    obtain ⟨shape, hshape, hencode⟩ := bind_eq_ok_iff.1 h
    obtain ⟨hops, hresolves⟩ := Schema.shape_eq_ok_iff.1 hshape
    clear h hshape
    -- The value stays the same while aliases are followed, so this is a second induction.
    induction hresolves with
    | here hview => exact encodes_of_encodeShape hview hencode fun part hpart _ _ => ih part hpart
    | custom hget =>
      obtain ⟨tag, ctor, slots, hctor, htypes, rfl, rfl, hslots⟩ :=
        exists_slots_of_encodeShape_tagged hencode
      exact .custom hget hctor htypes fun slot hmem =>
        ih _ (List.mem_map_of_mem hmem) (hslots slot hmem)
    | hop hget _ ih' => exact .hop hget (ih' hencode)

/-! ## The encoder produces all of it -/

theorem encode_of_view {schema : Schema} {type : Ty} {shape : Shape} (value : Value)
    (hview : type.view = .shape shape) :
    encode schema type value = encodeShape schema shape value := by
  rw [encode, Schema.shape_of_view hview]
  rfl

/-- An alias encodes as its definition does. -/
theorem encode_hop {schema : Schema} {name d : String} {type : Ty} {value : Value} {json : Json}
    (hget : schema.get? name = some (.alias d type)) :
    encode schema (.named name) value = .ok json ↔ encode schema type value = .ok json := by
  rw [encode, encode, bind_eq_ok_iff, bind_eq_ok_iff]
  simp only [Schema.shape_named_of_alias hget]

theorem encodeEach_slots {schema : Schema} {slots : List Slot}
    (h : ∀ slot ∈ slots, encode schema slot.type slot.value = .ok slot.json) :
    encodeEach schema (slots.map Slot.type) (slots.map Slot.value) =
      .ok (slots.map Slot.json) := by
  rw [encodeEach_eq, List.zip_map']
  exact mapM_map_eq_ok h

theorem encodeShape_tuple_slots {schema : Schema} {slots : List Slot}
    (h : ∀ slot ∈ slots, encode schema slot.type slot.value = .ok slot.json) :
    encodeShape schema (.tuple (slots.map Slot.type)) (.tuple (slots.map Slot.value)) =
      .ok (.array (slots.map Slot.json)) := by
  rw [encodeShape, if_neg (by simp), encodeEach_slots h]
  rfl

theorem encodeShape_tagged_slots {schema : Schema} {label tag : String} {ctors : List Ctor}
    {ctor : Ctor} {slots : List Slot} (hctor : ctor? ctors tag = .ok ctor)
    (htypes : ctor.arguments = slots.map Slot.type)
    (h : ∀ slot ∈ slots, encode schema slot.type slot.value = .ok slot.json) :
    encodeShape schema (.tagged label ctors) (.variant tag (slots.map Slot.value)) =
      .ok (envelope tag (slots.map Slot.json)) := by
  rw [encodeShape, hctor]
  show (if _ then _ else _) = _
  rw [htypes, if_neg (by simp), encodeEach_slots h]
  rfl

theorem encode_of_encodes {schema : Schema} {type : Ty} {value : Value} {json : Json}
    (h : Encodes schema type value json) : encode schema type value = .ok json := by
  induction h with
  | unit | bool | char | string => rw [encode_of_view _ rfl, encodeShape]; rfl
  | int hsafe => rw [encode_of_view _ rfl, encodeShape, if_pos hsafe]; rfl
  | float hfinite => rw [encode_of_view _ rfl, encodeShape, if_pos hfinite]; rfl
  | list _ ih =>
    rw [encode_of_view _ rfl, encodeShape, encodeItems_eq, mapM_map_eq_ok ih]
    rfl
  | @pair a b _ _ iha ihb =>
    rw [encode_of_view _ rfl]
    exact @encodeShape_tuple_slots schema [a, b] (by simp [iha, ihb])
  | @triple a b c _ _ _ iha ihb ihc =>
    rw [encode_of_view _ rfl]
    exact @encodeShape_tuple_slots schema [a, b, c] (by simp [iha, ihb, ihc])
  | @record slots values hfound _ ih =>
    have hactions : ∀ slot ∈ slots, ∃ action,
        (fieldEncoders schema values).lookup slot.1 = some action ∧
          action slot.2.type = .ok slot.2.json := by
      intro slot hmem
      refine ⟨fun type => encode schema type slot.2.value, ?_, ih slot hmem⟩
      rw [lookup_fieldEncoders, hfound slot hmem]
      rfl
    rw [encode_of_view _ rfl, encodeShape, eachField_map_eq_ok hactions]
    rfl
  | @just slot _ ih =>
    rw [encode_of_view _ rfl]
    exact @encodeShape_tagged_slots schema _ _ _ _ [slot] rfl rfl (by simp [ih])
  | nothing item =>
    rw [encode_of_view _ rfl]
    exact @encodeShape_tagged_slots schema _ _ _ _ [] rfl rfl (by simp)
  | @ok error slot _ ih =>
    rw [encode_of_view _ rfl]
    exact @encodeShape_tagged_slots schema _ _ _ _ [slot] rfl rfl (by simp [ih])
  | @err success slot _ ih =>
    rw [encode_of_view _ rfl]
    exact @encodeShape_tagged_slots schema _ _ _ _ [slot] rfl rfl (by simp [ih])
  | hop hget _ ih => exact (encode_hop hget).2 ih
  | @custom name d tag ctors ctor slots hget hctor htypes _ ih =>
    rw [encode, Schema.shape_of_custom hget]
    exact @encodeShape_tagged_slots schema name tag ctors ctor slots hctor htypes ih

/-- **The encoder computes the wire format**: it succeeds exactly on the values that have an
encoding, and returns it. -/
theorem encode_eq_ok_iff {schema : Schema} {type : Ty} {value : Value} {json : Json} :
    encode schema type value = .ok json ↔ Encodes schema type value json :=
  ⟨encodes_of_encode value, encode_of_encodes⟩

end ElmWire.Wire
