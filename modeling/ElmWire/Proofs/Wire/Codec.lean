import ElmWire.Proofs.Failing
import ElmWire.Proofs.Members
import ElmWire.Wire.Codec

/-!
# The codec, one equation for each shape

`Wire.encode` and `Wire.decode` go down a value or a JSON value through helpers of their own: one
for the items of a list, one for items of different types, one that turns members into functions
of a type.  This file replaces the helpers by `List.mapM`, and says for each shape what the codec
does with a type that comes down to it.  Later proofs use these equations and no definition.
-/

set_option autoImplicit false
namespace ElmWire.Wire

/-! ## The helpers -/

theorem encodeItems_eq (schema : Schema) (type : Ty) (values : List Value) :
    encodeItems schema type values = values.mapM (encode schema type) := by
  induction values with
  | nil => rw [encodeItems, List.mapM_nil]
  | cons value rest ih => rw [encodeItems, List.mapM_cons, ih, encode, bind_assoc]

theorem encodeEach_eq (schema : Schema) (types : List Ty) (values : List Value) :
    encodeEach schema types values =
      (types.zip values).mapM fun pair => encode schema pair.1 pair.2 := by
  induction values generalizing types with
  | nil => rw [encodeEach, List.zip_nil_right, List.mapM_nil]; simp
  | cons value rest ih =>
    cases types with
    | nil => rw [encodeEach, List.zip_nil_left, List.mapM_nil]; simp
    | cons type types =>
      rw [encodeEach, List.zip_cons_cons, List.mapM_cons, ih, encode, bind_assoc]

theorem lookup_fieldEncoders (schema : Schema) (values : List (String × Value)) (name : String) :
    (fieldEncoders schema values).lookup name =
      (values.lookup name).map fun value type => encode schema type value := by
  induction values with
  | nil => rw [fieldEncoders]; rfl
  | cons head rest ih =>
    obtain ⟨other, value⟩ := head
    rw [fieldEncoders, List.lookup_cons, List.lookup_cons, ih]
    split <;> rfl

theorem decodeItems_eq (schema : Schema) (type : Ty) (items : List Json) :
    decodeItems schema type items = items.mapM (decode schema type) := by
  induction items with
  | nil => rw [decodeItems, List.mapM_nil]
  | cons json rest ih => rw [decodeItems, List.mapM_cons, ih, decode, bind_assoc]

theorem decodeEach_eq (schema : Schema) (types : List Ty) (items : List Json) :
    decodeEach schema types items =
      (types.zip items).mapM fun pair => decode schema pair.1 pair.2 := by
  induction items generalizing types with
  | nil => rw [decodeEach, List.zip_nil_right, List.mapM_nil]; simp
  | cons json rest ih =>
    cases types with
    | nil => rw [decodeEach, List.zip_nil_left, List.mapM_nil]; simp
    | cons type types =>
      rw [decodeEach, List.zip_cons_cons, List.mapM_cons, ih, decode, bind_assoc]

theorem lookup_memberDecoders (schema : Schema) (members : List (String × Json)) (name : String) :
    (memberDecoders schema members).lookup name =
      (members.lookup name).map fun json type => decode schema type json := by
  induction members with
  | nil => rw [memberDecoders]; rfl
  | cons head rest ih =>
    obtain ⟨other, json⟩ := head
    rw [memberDecoders, List.lookup_cons, List.lookup_cons, ih]
    split <;> rfl

theorem decode_of_shape {schema : Schema} {type : Ty} {shape : Shape} (json : Json)
    (hshape : schema.shape type = .ok shape) :
    decode schema type json = decodeShape schema shape json := by
  rw [decode, hshape]
  rfl

/-! ## Fields by name -/

/-- Going through fields succeeds exactly when every field has an action that does. -/
theorem eachField_eq_ok_iff {α : Type} {actions : List (String × (Ty → Except Error α))}
    {fields : List (String × Ty)} {results : List (String × α)} :
    eachField actions fields = .ok results ↔
      List.Forall₂ (fun field result => result.1 = field.1 ∧
        ∃ action, actions.lookup field.1 = some action ∧ action field.2 = .ok result.2)
        fields results := by
  rw [eachField, mapM_eq_ok_iff]
  refine iff_of_eq (congrArg (fun step => List.Forall₂ step fields results) ?_)
  funext field result
  obtain ⟨name, a⟩ := result
  apply propext
  cases actions.lookup field.1 with
  | none => simp
  | some action =>
    rw [map_eq_ok_iff]
    simp only [Prod.mk.injEq, Option.some.injEq, exists_eq_left']
    constructor
    · rintro ⟨b, hb, hname, rfl⟩
      exact ⟨hname.symm, hb⟩
    · rintro ⟨hname, ha⟩
      exact ⟨a, ha, hname.symm, rfl⟩

/-- If every field has an action that succeeds, so does going through them. -/
theorem eachField_map_eq_ok {α γ : Type} {actions : List (String × (Ty → Except Error α))}
    {slots : List γ} {name : γ → String} {type : γ → Ty} {result : γ → α}
    (h : ∀ slot ∈ slots, ∃ action, actions.lookup (name slot) = some action ∧
      action (type slot) = .ok (result slot)) :
    eachField actions (slots.map fun slot => (name slot, type slot)) =
      .ok (slots.map fun slot => (name slot, result slot)) := by
  rw [eachField_eq_ok_iff, List.forall₂_map_left_iff, List.forall₂_map_right_iff, List.forall₂_same]
  exact fun slot hmem => ⟨rfl, h slot hmem⟩

end ElmWire.Wire
