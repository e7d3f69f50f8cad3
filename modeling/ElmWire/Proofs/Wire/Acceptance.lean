import ElmWire.Proofs.Wire.Codec
import ElmWire.Proofs.Wire.Resolution

/-!
# What the decoder accepts

`decode?` is the decoder without its reasons for refusing: the value that JSON is accepted as, if it
is.  For each form of type one lemma says what is accepted, in terms of what is accepted at the
places of a message:

* `member? schema json name type` — the member `name` of an object, at a type;
* `item? schema json i type` — the item at position `i` of an array, at a type;
* `constructor? ctors json` — the constructor that a message names.

None of them is there in a message of another kind, so the lemmas need not look at the message.  The
one exception is a record type without fields, for which it matters that the message is an object.
-/

set_option autoImplicit false
namespace ElmWire.Wire

/-! ## The places of a message -/

/-- The value that JSON is accepted as at a type. -/
def decode? (schema : Schema) (type : Ty) (json : Json) : Option Value :=
  (decode schema type json).toOption

/-- The value of a member of an object at a type. -/
def member? (schema : Schema) (json : Json) (name : String) (type : Ty) : Option Value :=
  match json with
  | .object members => (members.lookup name).bind (decode? schema type)
  | _ => none

/-- The value of an item of an array at a type. -/
def item? (schema : Schema) (json : Json) (i : Nat) (type : Ty) : Option Value :=
  match json with
  | .array items => items[i]?.bind (decode? schema type)
  | _ => none

/-- The constructor that a message names. -/
def constructor? (ctors : List Ctor) (json : Json) : Option Ctor :=
  match json with
  | .object members =>
    match members.lookup variantTag with
    | some (.string tag) => ctors.find? fun ctor => ctor.name = tag
    | _ => none
  | _ => none

/-- The arguments of a constructor in a message. -/
def arguments? (schema : Schema) (json : Json) (types : List Ty) : Option (List Value) :=
  types.zipIdx.mapM fun place => member? schema json (argKey place.2) place.1

section

variable {schema : Schema}

theorem toOption_ctor? (ctors : List Ctor) (tag : String) :
    (ctor? ctors tag).toOption = ctors.find? fun ctor => ctor.name = tag := by
  rw [ctor?]
  cases ctors.find? fun ctor => ctor.name = tag <;> rfl

theorem toOption_tag? (ctors : List Ctor) (members : List (String × Json)) :
    (tag? ctors members).toOption = constructor? ctors (.object members) := by
  rw [tag?, constructor?]
  cases members.lookup variantTag with
  | none => rfl
  | some json =>
    cases json with
    | string tag => exact toOption_ctor? ctors tag
    | _ => rfl

theorem toOption_eachField (members : List (String × Json)) (fields : List (String × Ty)) :
    (eachField (memberDecoders schema members) fields).toOption =
      fields.mapM fun field =>
        (member? schema (.object members) field.1 field.2).map fun value => (field.1, value) := by
  rw [eachField, toOption_mapM]
  congr 1
  funext field
  rw [lookup_memberDecoders, member?]
  cases members.lookup field.1 with
  | none => rfl
  | some json => exact toOption_map _ _

/-! ## What is accepted at each form of type -/

theorem decode?_of_shape {type : Ty} {shape : Shape} (hshape : schema.shape type = .ok shape)
    (json : Json) : decode? schema type json = (decodeShape schema shape json).toOption := by
  rw [decode?, decode_of_shape json hshape]

theorem decode?_bool (json : Json) : decode? schema .bool json =
    match json with
    | .bool b => some (.bool b)
    | _ => none := by
  rw [decode?_of_shape (Schema.shape_of_view rfl), decodeShape.eq_def]
  cases json <;> rfl

theorem decode?_float (json : Json) : decode? schema .float json =
    match json with
    | .number n => some (.float n.toFloat)
    | _ => none := by
  rw [decode?_of_shape (Schema.shape_of_view rfl), decodeShape.eq_def]
  cases json <;> rfl

theorem decode?_string (json : Json) : decode? schema .string json =
    match json with
    | .string s => some (.string s)
    | _ => none := by
  rw [decode?_of_shape (Schema.shape_of_view rfl), decodeShape.eq_def]
  cases json <;> rfl

theorem toOption_safeInt? (n : Json.Number) :
    (safeInt? n).toOption = n.toInt?.bind fun i => if isSafeInt i then some i else none := by
  rw [safeInt?]
  cases n.toInt? with
  | none => rfl
  | some i => by_cases hsafe : isSafeInt i <;> simp [hsafe, Except.toOption]

theorem decode?_int (json : Json) : decode? schema .int json =
    match json with
    | .number n => (n.toInt?.bind fun i => if isSafeInt i then some i else none).map .int
    | _ => none := by
  rw [decode?_of_shape (Schema.shape_of_view rfl), decodeShape.eq_def]
  cases json with
  | number n =>
    show (safeInt? n >>= _).toOption = Option.map _ _
    rw [toOption_bind_pure, toOption_safeInt?]
  | _ => rfl

/-- The only character of a string. -/
def charOf? (s : String) : Option Char :=
  match s.toList with
  | [c] => some c
  | _ => none

theorem toOption_onlyChar? (s : String) : (onlyChar? s).toOption = charOf? s := by
  rw [onlyChar?, charOf?]
  match s.toList with
  | [] => rfl
  | [c] => rfl
  | c :: d :: rest => rfl

theorem decode?_char (json : Json) : decode? schema .char json =
    match json with
    | .string s => (charOf? s).map .char
    | _ => none := by
  rw [decode?_of_shape (Schema.shape_of_view rfl), decodeShape.eq_def]
  cases json with
  | string s =>
    show (onlyChar? s >>= _).toOption = Option.map _ _
    rw [toOption_bind_pure, toOption_onlyChar?]
  | _ => rfl

theorem decode?_list (item : Ty) (json : Json) : decode? schema (.list item) json =
    match json with
    | .array items => (items.mapM (decode? schema item)).map .list
    | _ => none := by
  rw [decode?_of_shape (Schema.shape_of_view rfl), decodeShape.eq_def]
  cases json with
  | array items =>
    show (decodeItems schema item items >>= _).toOption = _
    rw [decodeItems_eq, toOption_bind_pure, toOption_mapM]
    rfl
  | _ => rfl

theorem decode?_unit (json : Json) :
    decode? schema .unit json = (constructor? unitCtors json).map fun _ => .unit := by
  rw [decode?_of_shape (Schema.shape_of_view rfl), decodeShape.eq_def]
  cases json with
  | object members =>
    show (tag? unitCtors members >>= _).toOption = _
    rw [toOption_bind_pure, toOption_tag?]
  | _ => rfl

/-- A record type with fields. -/
theorem decode?_record {fields : List (String × Ty)} (hne : fields ≠ []) (json : Json) :
    decode? schema (.record fields) json =
      (fields.mapM fun field => member? schema json field.1 field.2).map fun values =>
        .record (Members.ofList ((fields.map Prod.fst).zip values)) := by
  rw [decode?_of_shape (Schema.shape_of_view rfl), decodeShape.eq_def]
  cases json with
  | object members =>
    show (eachField (memberDecoders schema members) fields >>= _).toOption = _
    rw [toOption_bind_pure, toOption_eachField, mapM_map_zip, Option.map_map]
    rfl
  | _ =>
    -- The first field is not there.
    cases fields with
    | nil => exact absurd rfl hne
    | cons field rest => rfl

/-- A type whose values are made by constructors. -/
theorem decode?_tagged {type : Ty} {label : String} {ctors : List Ctor}
    (hshape : schema.shape type = .ok (.tagged label ctors)) (json : Json) :
    decode? schema type json = (constructor? ctors json).bind fun ctor =>
      (arguments? schema json ctor.arguments).map (.variant ctor.name) := by
  rw [decode?_of_shape hshape, decodeShape.eq_def]
  cases json with
  | object members =>
    show (tag? ctors members >>= _).toOption = _
    rw [toOption_bind, toOption_tag?]
    congr 1
    funext ctor
    have hvalues : (eachField (memberDecoders schema members)
        (ctor.arguments.mapIdx fun i type => (argKey i, type))).toOption.map (List.map Prod.snd) =
          arguments? schema (.object members) ctor.arguments := by
      rw [toOption_eachField, List.mapIdx_eq_zipIdx_map, List.mapM_map, ← mapM_map_option,
        arguments?]
      congr 1
      funext place
      cases h : member? schema (.object members) (argKey place.2) place.1 <;> simp [h]
    rw [toOption_bind_pure, ← hvalues, Option.map_map]
    rfl
  | _ => rfl

/-- Going through types and items at the same positions is going through both lists at once, if
there are enough items. -/
theorem mapM_zipIdx_items (items : List Json) (types : List Ty) (k : Nat) :
    ((types.zipIdx k).mapM fun place => item? schema (.array items) place.2 place.1) =
      if (items.drop k).length < types.length then none
      else (types.zip (items.drop k)).mapM fun pair => decode? schema pair.1 pair.2 := by
  induction types generalizing k with
  | nil => rfl
  | cons type types ih =>
    rw [List.zipIdx_cons, List.mapM_cons, ih (k + 1), item?]
    rcases Nat.lt_or_ge k items.length with hk | hk
    · rw [List.getElem?_eq_getElem hk, List.drop_eq_getElem_cons hk, List.zip_cons_cons,
        List.mapM_cons, Option.bind_some, List.length_cons, List.length_cons]
      by_cases hlength : (items.drop (k + 1)).length < types.length
      · rw [if_pos hlength, if_pos (by omega)]
        cases decode? schema type items[k] <;> rfl
      · rw [if_neg hlength, if_neg (by omega)]
    · rw [List.getElem?_eq_none hk, List.drop_eq_nil_of_le hk]
      exact (if_pos (by simp)).symm

/-- A tuple type. -/
theorem decode?_tuple {type : Ty} {types : List Ty}
    (hshape : schema.shape type = .ok (.tuple types)) (hne : types ≠ []) (json : Json) :
    decode? schema type json =
      (types.zipIdx.mapM fun place => item? schema json place.2 place.1).map .tuple := by
  rw [decode?_of_shape hshape, decodeShape.eq_def]
  cases json with
  | array items =>
    rw [mapM_zipIdx_items, List.drop_zero]
    show (if items.length < types.length then _ else _ : Except Error Value).toOption = _
    by_cases hlength : items.length < types.length
    · rw [if_pos hlength, if_pos hlength]
      rfl
    · rw [if_neg hlength, if_neg hlength, toOption_bind_pure, decodeEach_eq, toOption_mapM]
      rfl
  | _ =>
    -- The first item is not there.
    cases types with
    | nil => exact absurd rfl hne
    | cons type types => rfl

/-- An alias is what its definition is. -/
theorem decode?_hop {name d : String} {type : Ty} (hget : schema.get? name = some (.alias d type))
    (hshape : ∃ shape, schema.shape type = .ok shape) (json : Json) :
    decode? schema (.named name) json = decode? schema type json := by
  obtain ⟨shape, hshape⟩ := hshape
  rw [decode?_of_shape hshape, decode?_of_shape ((Schema.shape_named_of_alias hget).2 hshape)]

end

end ElmWire.Wire
