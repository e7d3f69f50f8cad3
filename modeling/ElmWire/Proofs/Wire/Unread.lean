import ElmWire.Proofs.Wire.Envelope
import ElmWire.Proofs.Wire.Recursion

/-!
# What the decoder passes over

A message may have more in it than its type asks for, and the decoder does not mind: **it reads what
the type names and nothing else** (`decode_eq_of_grows`).

* `Grows schema type json json'` — `json'` has one thing more than `json` that is not read at the
  type: a member of an object that is no field, a member of an envelope that is neither its tag nor
  an argument, or an item behind those of a tuple.  The place where it is added may be anywhere
  inside the message, and the type that is read there is found by going down the type along with the
  message.
* `Grows.decode_eq` — one addition changes neither the value that is read nor the error.

What an envelope is read for depends on the tag in the same object, so an addition never touches the
tag.  And a member is read at one type only, since no record type repeats a field.
-/

set_option autoImplicit false
namespace ElmWire

open Wire

/-! ## Fields stay distinct on the way down -/

/-- No record type inside the shape repeats a field name, nor is the shape itself one that does. -/
structure Wire.Shape.DistinctFields (shape : Shape) : Prop where
  names : ∀ fields, shape = .record fields → (fields.map Prod.fst).Nodup
  parts : ∀ part ∈ shape.types, part.DistinctFields

theorem Ty.DistinctFields.of_view {type : Ty} {shape : Shape} (h : type.DistinctFields)
    (hview : type.view = .shape shape) : shape.DistinctFields := by
  refine ⟨?_, fun part hpart => ?_⟩
  · rintro fields rfl
    cases type <;> cases hview
    exact h.nodup
  · cases type with
    | unit | bool | int | float | char | string => cases hview; simp [Shape.types] at hpart
    | named name => cases hview
    | list item | maybe item =>
      cases hview
      obtain rfl : part = item := by simpa [Shape.types, maybeCtors] using hpart
      exact h
    | pair first second | result second first =>
      cases hview
      obtain ⟨hleft, hright⟩ := List.forall_mem_append.1 h
      simp only [Shape.types, resultCtors, List.flatMap_cons, List.flatMap_nil, List.append_nil,
        List.singleton_append, List.mem_cons, List.not_mem_nil, or_false] at hpart
      rcases hpart with rfl | rfl
      · assumption
      · assumption
    | triple first second third =>
      cases hview
      obtain ⟨hfirst, hsecond, hthird⟩ := Ty.distinctFields_triple.1 h
      simp only [Shape.types, List.mem_cons, List.not_mem_nil, or_false] at hpart
      rcases hpart with rfl | rfl | rfl
      · exact hfirst
      · exact hsecond
      · exact hthird
    | record fields =>
      cases hview
      obtain ⟨field, hfield, rfl⟩ := List.mem_map.1 hpart
      exact h.field hfield

/-- The types at which the parts of a message are read repeat no field, if neither the type of the
message does nor the schema. -/
theorem Schema.DistinctFields.shape {schema : Schema} (hschema : schema.DistinctFields) {type : Ty}
    {shape : Shape} (htype : type.DistinctFields) (hshape : schema.shape type = .ok shape) :
    shape.DistinctFields := by
  obtain ⟨hops, hresolves⟩ := Schema.shape_eq_ok_iff.1 hshape
  clear hshape
  induction hresolves with
  | here hview => exact htype.of_view hview
  | custom hget =>
    refine ⟨by simp, fun part hpart fields hfields => ?_⟩
    obtain ⟨ctor, hctor, hargument⟩ := List.mem_flatMap.1 hpart
    exact hschema fields (Schema.records_subset_of_custom hget hctor hargument hfields)
  | hop hget _ ih =>
    exact ih fun fields hfields => hschema fields (Schema.records_subset_of_alias hget hfields)

namespace Wire

variable {schema : Schema}

/-! ## Adding to a message -/

/-- The constructors between which the tag of an envelope decides. -/
def Shape.ctors? : Shape → Option (List Ctor)
  | .unit => some unitCtors
  | .tagged _ ctors => some ctors
  | _ => none

/-- The second message is the first with one thing added that is not read at the type. -/
inductive Grows (schema : Schema) : Ty → Json → Json → Prop
  /-- An object that is read as a record gets a member that is none of the fields. -/
  | field {type : Ty} {fields : List (String × Ty)} {members : List (String × Json)} {key : String}
      {extra : Json} (hshape : schema.shape type = .ok (.record fields))
      (hkey : key ∉ fields.map Prod.fst) :
      Grows schema type (.object members) (.object (Members.insert key extra members))
  /-- An envelope gets a member that is neither its tag nor an argument of its constructor. -/
  | argument {type : Ty} {shape : Shape} {ctors : List Ctor} {members : List (String × Json)}
      {key : String} {extra : Json} (hshape : schema.shape type = .ok shape)
      (hctors : shape.ctors? = some ctors) (htag : key ≠ variantTag)
      (hkey : ∀ ctor, tag? ctors members = .ok ctor → ∀ i < ctor.arguments.length, key ≠ argKey i) :
      Grows schema type (.object members) (.object (Members.insert key extra members))
  /-- An array that has all items of a tuple gets one more behind them. -/
  | item {type : Ty} {types : List Ty} {items : List Json} {extra : Json}
      (hshape : schema.shape type = .ok (.tuple types)) (hlength : types.length ≤ items.length) :
      Grows schema type (.array items) (.array (items ++ [extra]))
  | inList {type part : Ty} {before after : List Json} {json json' : Json}
      (hshape : schema.shape type = .ok (.list part)) (h : Grows schema part json json') :
      Grows schema type (.array (before ++ json :: after)) (.array (before ++ json' :: after))
  | inTuple {type part : Ty} {types : List Ty} {before after : List Json} {json json' : Json}
      (hshape : schema.shape type = .ok (.tuple types)) (hpart : types[before.length]? = some part)
      (h : Grows schema part json json') :
      Grows schema type (.array (before ++ json :: after)) (.array (before ++ json' :: after))
  | inField {type part : Ty} {fields : List (String × Ty)} {members : List (String × Json)}
      {name : String} {json json' : Json} (hshape : schema.shape type = .ok (.record fields))
      (hpart : (name, part) ∈ fields) (hjson : members.lookup name = some json)
      (h : Grows schema part json json') :
      Grows schema type (.object members) (.object (Members.insert name json' members))
  | inArgument {type part : Ty} {label : String} {ctors : List Ctor} {ctor : Ctor}
      {members : List (String × Json)} {i : Nat} {json json' : Json}
      (hshape : schema.shape type = .ok (.tagged label ctors))
      (hctor : tag? ctors members = .ok ctor) (hpart : ctor.arguments[i]? = some part)
      (hjson : members.lookup (argKey i) = some json) (h : Grows schema part json json') :
      Grows schema type (.object members) (.object (Members.insert (argKey i) json' members))

/-! ## One addition -/

/-- Going through fields comes to the same if each of them does. -/
theorem eachField_memberDecoders_congr {members members' : List (String × Json)}
    {fields : List (String × Ty)}
    (h : ∀ field ∈ fields, atPlace (decode schema) (fieldSlot members' field) =
      atPlace (decode schema) (fieldSlot members field)) :
    eachField (memberDecoders schema members') fields =
      eachField (memberDecoders schema members) fields := by
  rw [eachField_eq (lookup_memberDecoders schema members'),
    eachField_eq (lookup_memberDecoders schema members), List.mapM_map, List.mapM_map]
  exact congrArg _ (mapM_congr_of_mem h)

theorem fieldSlot_insert_of_ne {members : List (String × Json)} {field : String × Ty} {key : String}
    (hne : field.1 ≠ key) (extra : Json) :
    fieldSlot (Members.insert key extra members) field = fieldSlot members field := by
  rw [fieldSlot, fieldSlot, Members.lookup_insert_of_ne hne]

theorem tag?_insert_of_ne {key : String} (hne : key ≠ variantTag) (extra : Json)
    (ctors : List Ctor) (members : List (String × Json)) :
    tag? ctors (Members.insert key extra members) = tag? ctors members := by
  rw [tag?, tag?, Members.lookup_insert_of_ne (Ne.symm hne)]

/-- A member that is read at one type may be replaced by one that is read there as the same. -/
theorem eachField_insert {members : List (String × Json)} {fields : List (String × Ty)}
    (hnodup : (fields.map Prod.fst).Nodup) {name : String} {part : Ty} {json json' : Json}
    (hpart : (name, part) ∈ fields) (hjson : members.lookup name = some json)
    (h : decode schema part json' = decode schema part json) :
    eachField (memberDecoders schema (Members.insert name json' members)) fields =
      eachField (memberDecoders schema members) fields := by
  refine eachField_memberDecoders_congr fun field hfield => ?_
  by_cases hname : field.1 = name
  · have hsame : field.2 = part := by
      have hfound := Members.lookup_eq_some_of_mem hnodup hpart
      rw [← hname, Members.lookup_eq_some_of_mem hnodup hfield] at hfound
      exact Option.some.inj hfound
    rw [fieldSlot, fieldSlot, hname, Members.lookup_insert_self, hjson, hsame]
    exact h
  · rw [fieldSlot_insert_of_ne hname]

/-- The members that hold the arguments of a constructor have different names. -/
theorem nodup_argumentFields (types : List Ty) :
    ((types.mapIdx fun i type => (argKey i, type)).map Prod.fst).Nodup := by
  have hnames : (types.mapIdx fun i type => (argKey i, type)).map Prod.fst =
      (List.range types.length).map argKey := by
    refine List.ext_getElem (by simp) fun i h₁ h₂ => ?_
    simp
  rw [hnames]
  exact List.nodup_range.map argKey_injective

/-- **One addition changes nothing.** -/
theorem Grows.decode_eq (hschema : schema.DistinctFields) {type : Ty} {json json' : Json}
    (h : Grows schema type json json') :
    type.DistinctFields → decode schema type json' = decode schema type json := by
  induction h with
  | field hshape hkey =>
    intro _
    rw [decode_of_shape _ hshape, decode_of_shape _ hshape, decodeShape, decodeShape,
      eachField_memberDecoders_congr]
    intro field hfield
    have hne : field.1 ≠ _ := ne_of_mem_of_not_mem (List.mem_map_of_mem hfield) hkey
    rw [fieldSlot_insert_of_ne hne]
  | @argument type shape ctors members key extra hshape hctors htag hkey =>
    intro _
    rw [decode_of_shape _ hshape, decode_of_shape _ hshape]
    cases shape with
    | unit =>
      rw [decodeShape, decodeShape, members?, members?]
      show tag? unitCtors _ >>= _ = tag? unitCtors _ >>= _
      rw [tag?_insert_of_ne htag]
    | tagged label ctors =>
      cases hctors
      rw [decodeShape, decodeShape, tag?_insert_of_ne htag]
      cases hctor : tag? ctors members with
      | error e => rfl
      | ok ctor =>
        show eachField _ _ >>= _ = eachField _ _ >>= _
        rw [eachField_memberDecoders_congr]
        intro field hfield
        obtain ⟨i, hi, rfl⟩ := List.mem_mapIdx.1 hfield
        rw [fieldSlot_insert_of_ne (Ne.symm (hkey ctor hctor i hi))]
    | _ => cases hctors
  | @item type types items extra hshape hlength =>
    intro _
    have hzip : types.zip (items ++ [extra]) = types.zip items := by
      rw [List.zip_eq_zip_take_min, @List.zip_eq_zip_take_min _ _ types items, List.length_append,
        Nat.min_eq_left hlength, Nat.min_eq_left (Nat.le_add_right_of_le hlength),
        List.take_append_of_le_length hlength]
    rw [decode_of_shape _ hshape, decode_of_shape _ hshape, decodeShape, decodeShape,
      if_neg (by simp; omega), if_neg (by omega), decodeEach_eq, decodeEach_eq, hzip]
  | inList hshape _ ih =>
    intro htype
    have hpart := ih ((hschema.shape htype hshape).parts _ (List.mem_singleton_self _))
    rw [decode_of_shape _ hshape, decode_of_shape _ hshape, decodeShape, decodeShape,
      decodeItems_eq, decodeItems_eq, List.mapM_append, List.mapM_append, List.mapM_cons,
      List.mapM_cons, hpart]
  | @inTuple type part types before after json json' hshape hpart _ ih =>
    intro htype
    have hdecode := ih ((hschema.shape htype hshape).parts _ (List.mem_of_getElem? hpart))
    obtain ⟨hlt, rfl⟩ := List.getElem?_eq_some_iff.1 hpart
    have hzip : ∀ json : Json, types.zip (before ++ json :: after) =
        (types.take before.length).zip before ++
          (types[before.length], json) :: (types.drop (before.length + 1)).zip after := by
      intro json
      rw [← List.zip_cons_cons, ← List.zip_append (by simp; omega), List.getElem_cons_drop,
        List.take_append_drop]
    rw [decode_of_shape _ hshape, decode_of_shape _ hshape, decodeShape, decodeShape,
      decodeEach_eq, decodeEach_eq, hzip, hzip, List.mapM_append, List.mapM_append, List.mapM_cons,
      List.mapM_cons, hdecode]
    simp only [List.length_append, List.length_cons]
  | inField hshape hpart hjson _ ih =>
    intro htype
    have hfields := hschema.shape htype hshape
    have hdecode := ih (hfields.parts _ (List.mem_map_of_mem hpart))
    rw [decode_of_shape _ hshape, decode_of_shape _ hshape, decodeShape, decodeShape,
      eachField_insert (hfields.names _ rfl) hpart hjson hdecode]
  | @inArgument type part label ctors ctor members i json json' hshape hctor hpart hjson _ ih =>
    intro htype
    obtain ⟨hi, rfl⟩ := List.getElem?_eq_some_iff.1 hpart
    obtain ⟨tag, htag⟩ := exists_tag_of_tag? hctor
    have hmem := mem_types_of_ctor (mem_of_ctor? htag) label (List.getElem_mem hi)
    have hdecode := ih ((hschema.shape htype hshape).parts _ hmem)
    have hslot : (argKey i, ctor.arguments[i]) ∈
        ctor.arguments.mapIdx fun i type => (argKey i, type) := List.mem_mapIdx.2 ⟨i, hi, rfl⟩
    rw [decode_of_shape _ hshape, decode_of_shape _ hshape, decodeShape, decodeShape,
      tag?_insert_of_ne (argKey_ne_variantTag i), hctor]
    show eachField _ _ >>= _ = eachField _ _ >>= _
    rw [eachField_insert (nodup_argumentFields ctor.arguments) hslot hjson hdecode]

/-! ## Any number of additions -/

/-- **The decoder reads only what the type names.**  A message to which things are added that are
not read, at any depth, is read as the same value, or refused with the same error. -/
theorem decode_eq_of_grows (hschema : schema.DistinctFields) {type : Ty}
    (htype : type.DistinctFields) {json json' : Json}
    (h : Relation.ReflTransGen (Grows schema type) json json') :
    decode schema type json' = decode schema type json := by
  induction h with
  | refl => rfl
  | tail _ hlast ih => rw [hlast.decode_eq hschema htype, ih]

/-- A node whose second subtree is a leaf, with the other two arguments and further members. -/
def nodeWith (left data : Json) (further : List (String × Json)) : Json :=
  .object ([("_0", left), ("_1", data), ("_2", envelope "Leaf" [])] ++ further ++
    [("variant", .string "Node")])

/-- A node between two leaves. -/
def plainNode (size : Json) : Json := nodeWith (envelope "Leaf" []) (.object [("size", size)]) []

/-- The node with a fourth argument, with a note beside its size, and with an argument in its first
leaf. -/
def crowdedNode (size : Json) : Json :=
  nodeWith (.object [("_0", .null), ("variant", .string "Leaf")])
    (.object [("note", .null), ("size", size)]) [("_3", .null)]

theorem grows_plainNode (size : Json) :
    Relation.ReflTransGen (Grows treeSchema (.named "Tree"))
      (plainNode size) (crowdedNode size) := by
  have hargument : Grows treeSchema (.named "Tree") (plainNode size)
      (nodeWith (envelope "Leaf" []) (.object [("size", size)]) [("_3", .null)]) := by
    refine @Grows.argument _ _ _ _ _ "_3" .null rfl rfl (by decide) ?_
    rintro _ ⟨⟩
    decide
  have hnote : Grows treeSchema (.record [("size", .int)]) (.object [("size", size)])
      (.object [("note", .null), ("size", size)]) :=
    @Grows.field _ _ _ _ "note" .null rfl (by decide)
  have hleaf : Grows treeSchema (.named "Tree") (envelope "Leaf" [])
      (.object [("_0", .null), ("variant", .string "Leaf")]) := by
    refine @Grows.argument _ _ _ _ _ "_0" .null rfl rfl (by decide) ?_
    rintro _ ⟨⟩
    decide
  have hsecond : Grows treeSchema (.named "Tree")
      (nodeWith (envelope "Leaf" []) (.object [("size", size)]) [("_3", .null)])
      (nodeWith (envelope "Leaf" []) (.object [("note", .null), ("size", size)]) [("_3", .null)]) :=
    .inArgument (i := 1) rfl rfl rfl rfl hnote
  have hfirst : Grows treeSchema (.named "Tree")
      (nodeWith (envelope "Leaf" []) (.object [("note", .null), ("size", size)]) [("_3", .null)])
      (crowdedNode size) := .inArgument (i := 0) rfl rfl rfl rfl hleaf
  exact ((Relation.ReflTransGen.single hargument).tail hsecond).tail hfirst

/-- The crowded node is read as the plain one, and refused for the same reason. -/
theorem decode_crowdedNode :
    treeSchema.DistinctFields ∧ (Ty.named "Tree").DistinctFields ∧
      decode treeSchema (.named "Tree") (crowdedNode (.number (.int 1))) =
        .ok (.variant "Node" [.variant "Leaf" [], .record [("size", .int 1)], .variant "Leaf" []]) ∧
      decode treeSchema (.named "Tree") (crowdedNode .null) =
        .error (.mismatch "an integer" "null") := by
  have hschema : treeSchema.DistinctFields := by decide
  have htype : (Ty.named "Tree").DistinctFields := by decide
  have hsame : ∀ size, decode treeSchema (.named "Tree") (crowdedNode size) =
      decode treeSchema (.named "Tree") (plainNode size) := fun size =>
    decode_eq_of_grows hschema htype (grows_plainNode size)
  refine ⟨hschema, htype, ?_, ?_⟩
  · rw [hsame]
    rfl
  · rw [hsame]
    rfl

end Wire
end ElmWire
