import ElmWire.Proofs.Elm.Module
import ElmWire.Proofs.Elm.Running
import ElmWire.Proofs.Parts
import ElmWire.Proofs.Wire.Acceptance

/-!
# Decoders of types

`DecoderOf schema type d` says which Elm value `d` the decoder of a type is, without saying how it
is written down: the decoders of the parts, put together in the way of the form of the type.

A decoder accepts what the reference decoder accepts if its parts do so on the parts of the message
(`DecoderOf.yields`).  References to definitions are left out here, since they lead to a decoder at
the same message.
-/

set_option autoImplicit false
namespace ElmWire.Elm

open Wire (decode? member? item? arguments?)

/-! ## Decoders -/

/-- The function makes a record of its arguments, which are the fields in this order. -/
structure Builds (decls : List Decl) (builder : Val) (fields : List String) : Prop where
  /-- With some of its arguments it waits for the rest. -/
  waits : ∀ vs : List Val, vs.length < fields.length →
    ∃ v, vs.foldlM (apply decls) builder = some v
  /-- With all of them it is the record. -/
  ends : ∀ vs : List Val, vs.length = fields.length →
    vs.foldlM (apply decls) builder = some (.record (Members.ofList (fields.zip vs)))

/-- The decoder of a type. -/
inductive DecoderOf (schema : Schema) : Ty → Val → Prop
  | unit : DecoderOf schema .unit
      (decodeCustomType [decodeVariant Wire.unitTag (.decoder (.succeed .unit))])
  | bool : DecoderOf schema .bool (.decoder .bool)
  | int : DecoderOf schema .int (.decoder .int)
  | float : DecoderOf schema .float (.decoder .float)
  | char : DecoderOf schema .char (.decoder (.andThen (.builtin .pickChar []) (.decoder .string)))
  | string : DecoderOf schema .string (.decoder .string)
  | list {item : Ty} {d : Val} (h : DecoderOf schema item d) :
      DecoderOf schema (.list item) (.decoder (.list d))
  | pair {first second : Ty} {d e : Val} (hfirst : DecoderOf schema first d)
      (hsecond : DecoderOf schema second e) :
      DecoderOf schema (.pair first second)
        (.decoder (.map (.builtin .makePair []) [.decoder (.index 0 d), .decoder (.index 1 e)]))
  | triple {first second third : Ty} {d e f : Val} (hfirst : DecoderOf schema first d)
      (hsecond : DecoderOf schema second e) (hthird : DecoderOf schema third f) :
      DecoderOf schema (.triple first second third)
        (.decoder (.map (.builtin .makeTriple [])
          [.decoder (.index 0 d), .decoder (.index 1 e), .decoder (.index 2 f)]))
  | record {slots : List (String × Ty × Val)} {builder : Val} (hne : slots ≠ [])
      (hslots : ∀ slot ∈ slots, DecoderOf schema slot.2.1 slot.2.2)
      (hbuilder : Builds schema.toElm builder (slots.map Prod.fst)) :
      DecoderOf schema (.record (slots.map fun slot => (slot.1, slot.2.1)))
        (pipeline (.decoder (.succeed builder))
          (slots.map fun slot => .decoder (.field slot.1 slot.2.2)))
  | maybe {item : Ty} {d : Val} (h : DecoderOf schema item d) :
      DecoderOf schema (.maybe item) (decodeCustomType [
        decodeVariant Wire.just (.decoder (.map (.ctor "Just" []) [decodeVariantArg 0 d])),
        decodeVariant Wire.nothing (.decoder (.succeed (.ctor "Nothing" [])))])
  | result {error ok : Ty} {d e : Val} (herror : DecoderOf schema error d)
      (hok : DecoderOf schema ok e) :
      DecoderOf schema (.result error ok) (decodeCustomType [
        decodeVariant Wire.ok (.decoder (.map (.ctor "Ok" []) [decodeVariantArg 0 e])),
        decodeVariant Wire.err (.decoder (.map (.ctor "Err" []) [decodeVariantArg 0 d]))])
  | named {name : String} {thunk : Val} (hname : schema.contains name)
      (hthunk : apply schema.toElm thunk .unit = some (.global (decoderName name))) :
      DecoderOf schema (.named name) (.decoder (.lazy thunk))

/-- The decoder makes a constructor with the name of everything that the decoders of its arguments
accept. -/
inductive Combines (name : String) (arguments : List Val) : Val → Prop
  | map : Combines name arguments (.decoder (.map (.ctor name []) arguments))
  | pipeline : Combines name arguments (pipeline (.decoder (.succeed (.ctor name []))) arguments)

/-- The decoder of a constructor. -/
structure VariantOf (schema : Schema) (ctor : Ctor) (d : Val) (slots : List (Ty × Val)) : Prop where
  types : ctor.arguments = slots.map Prod.fst
  decoders : ∀ slot ∈ slots, DecoderOf schema slot.1 slot.2
  combines : Combines ctor.name
    (slots.zipIdx.map fun place => decodeVariantArg place.2 place.1.2) d

/-! ## Decoders of places -/

/-- On this JSON, decoders of types accept what the reference decoder accepts. -/
def Agrees (schema : Schema) (json : Json) : Prop :=
  ∀ (type : Ty) (d : Val), DecoderOf schema type d →
    Yields schema.toElm d json ((decode? schema type json).map Val.ofValue)

section

variable {schema : Schema} {json : Json}

theorem yields_member (hparts : ∀ part ∈ json.parts, Agrees schema part) (name : String)
    {type : Ty} {d : Val} (h : DecoderOf schema type d) :
    Yields schema.toElm (.decoder (.field name d)) json
      ((member? schema json name type).map Val.ofValue) := by
  cases json with
  | object members =>
    rw [member?]
    cases hfound : members.lookup name with
    | none => exact yields_field_of_none hfound
    | some part =>
      have hpart : part ∈ (Json.object members).parts :=
        List.mem_map.2 ⟨_, Members.mem_of_lookup_eq_some hfound, rfl⟩
      exact yields_field hfound (hparts part hpart type d h)
  | _ => exact yields_field_of_ne (by simp)

theorem yields_item (hparts : ∀ part ∈ json.parts, Agrees schema part) (i : Nat)
    {type : Ty} {d : Val} (h : DecoderOf schema type d) :
    Yields schema.toElm (.decoder (.index i d)) json
      ((item? schema json i type).map Val.ofValue) := by
  cases json with
  | array items =>
    rw [item?]
    cases hfound : items[i]? with
    | none => exact yields_index_of_none hfound
    | some part => exact yields_index hfound (hparts part (List.mem_of_getElem? hfound) type d h)
  | _ => exact yields_index_of_ne (by simp)

/-! ## Tuples and records -/

theorem yields_tuple (hparts : ∀ part ∈ json.parts, Agrees schema part) {type : Ty}
    {slots : List (Ty × Val)} (hne : slots ≠ [])
    (hshape : schema.shape type = .ok (.tuple (slots.map Prod.fst)))
    (hslots : ∀ slot ∈ slots, DecoderOf schema slot.1 slot.2) {make : Val}
    (hmake : ∀ vs : List Val, vs.length = slots.length →
      vs.foldlM (apply schema.toElm) make = some (.tuple vs)) :
    Yields schema.toElm
      (.decoder (.map make (slots.zipIdx.map fun place => .decoder (.index place.2 place.1.2))))
      json ((decode? schema type json).map Val.ofValue) := by
  have hitems : ∀ place ∈ slots.zipIdx, Yields schema.toElm
      (.decoder (.index place.2 place.1.2)) json
      ((item? schema json place.2 place.1.1).map Val.ofValue) := fun place hplace =>
    yields_item hparts place.2 (hslots place.1 (List.fst_mem_of_mem_zipIdx hplace))
  have happly : ∀ vs, (slots.zipIdx.mapM fun place =>
      (item? schema json place.2 place.1.1).map Val.ofValue) = some vs →
      vs.foldlM (apply schema.toElm) make = some (.tuple vs) := by
    intro vs hvs
    have hlength := length_of_mapM_eq_some hvs
    rw [List.length_zipIdx] at hlength
    exact hmake vs hlength
  have hmap := yields_map hitems fun vs hvs => ⟨_, happly vs hvs⟩
  have houtcome : ((slots.zipIdx.mapM fun place =>
      (item? schema json place.2 place.1.1).map Val.ofValue).bind fun vs =>
        vs.foldlM (apply schema.toElm) make) = (decode? schema type json).map Val.ofValue := by
    rw [Option.bind_congr happly, Wire.decode?_tuple hshape (by simpa using hne), List.zipIdx_map,
      List.mapM_map, mapM_map_option]
    show _ = Option.map _ (Option.map _
      (slots.zipIdx.mapM fun place => item? schema json place.2 place.1.1))
    cases slots.zipIdx.mapM fun place => item? schema json place.2 place.1.1 with
    | none => rfl
    | some values =>
      rw [Option.map_some, Option.map_some, Option.map_some, Val.ofValue, ofValues_eq]
      rfl
  rw [houtcome] at hmap
  exact hmap

theorem ofValue_record (names : List String) (values : List Value) :
    Val.ofValue (.record (Members.ofList (names.zip values))) =
      .record (Members.ofList (names.zip (values.map Val.ofValue))) := by
  rw [Val.ofValue, ofFields_eq, ← Members.ofList_map, List.zip_map_right]
  rfl

theorem yields_record (hparts : ∀ part ∈ json.parts, Agrees schema part)
    {slots : List (String × Ty × Val)} (hne : slots ≠ []) {builder : Val}
    (hslots : ∀ slot ∈ slots, DecoderOf schema slot.2.1 slot.2.2)
    (hbuilder : Builds schema.toElm builder (slots.map Prod.fst)) :
    Yields schema.toElm
      (pipeline (.decoder (.succeed builder))
        (slots.map fun slot => .decoder (.field slot.1 slot.2.2)))
      json ((decode? schema (.record (slots.map fun slot => (slot.1, slot.2.1))) json).map
        Val.ofValue) := by
  have hfields : ∀ slot ∈ slots, Yields schema.toElm (.decoder (.field slot.1 slot.2.2)) json
      ((member? schema json slot.1 slot.2.1).map Val.ofValue) := fun slot hslot =>
    yields_member hparts slot.1 (hslots slot hslot)
  have happly : ∀ f', some builder = some f' → ∀ vs : List Val, vs.length ≤ slots.length →
      ∃ v, vs.foldlM (apply schema.toElm) f' = some v := by
    rintro _ ⟨⟩ vs hlength
    rcases Nat.lt_or_eq_of_le hlength with hlt | heq
    · exact hbuilder.waits vs (by rwa [List.length_map])
    · exact ⟨_, hbuilder.ends vs (by rwa [List.length_map])⟩
  have hpipeline := yields_pipeline hfields (yields_succeed builder json) happly
  rw [Option.bind_some, mapM_map_option] at hpipeline
  rw [Wire.decode?_record (by simpa using hne), List.mapM_map]
  show Yields _ _ _ (((slots.mapM fun slot => member? schema json slot.1 slot.2.1).map _).map _)
  cases hvalues : slots.mapM fun slot => member? schema json slot.1 slot.2.1 with
  | none =>
    rw [hvalues] at hpipeline
    exact hpipeline
  | some values =>
    have hlength : (values.map Val.ofValue).length = (slots.map Prod.fst).length := by
      rw [List.length_map, List.length_map, length_of_mapM_eq_some hvalues]
    rw [hvalues, Option.map_some, Option.bind_some, hbuilder.ends _ hlength] at hpipeline
    rw [Option.map_some, Option.map_some, List.map_map]
    exact (ofValue_record (slots.map Prod.fst) values).symm ▸ hpipeline

/-! ## Types with constructors -/

/-- The constructor that a message names chooses the decoder. -/
theorem yields_constructor {entries : List (Ctor × Val)} {outcome : Ctor → Option Val}
    (h : ∀ entry ∈ entries, Yields schema.toElm entry.2 json (outcome entry.1)) :
    Yields schema.toElm
      (decodeCustomType (entries.map fun entry => decodeVariant entry.1.name entry.2)) json
      ((Wire.constructor? (entries.map Prod.fst) json).bind outcome) := by
  cases json with
  | object members =>
    rw [Wire.constructor?]
    cases htag : members.lookup Wire.variantTag with
    | none => exact yields_decodeCustomType_of_none (yields_field_of_none htag)
    | some part =>
      cases part with
      | string tag =>
        have hvariants : entries.map (fun entry => decodeVariant entry.1.name entry.2) =
            (entries.map fun entry => (entry.1.name, entry.2)).map fun variant =>
              decodeVariant variant.1 variant.2 := by
          rw [List.map_map]
          rfl
        rw [hvariants]
        refine yields_decodeCustomType htag ?_
        show Yields _ _ _ (Option.bind ((entries.map Prod.fst).find? fun ctor => ctor.name = tag) _)
        rw [List.find?_map]
        cases hentry : entries.find? ((fun ctor => decide (ctor.name = tag)) ∘ Prod.fst) with
        | none =>
          have hnone : (entries.map fun entry => (entry.1.name, entry.2)).find?
              (fun variant => variant.1 = tag) = none := by
            rw [List.find?_map]
            exact congrArg _ hentry
          obtain ⟨message, hpick⟩ := pickVariant_of_find?_none hnone
          rw [hpick]
          exact yields_fail message _
        | some entry =>
          have hsome : (entries.map fun entry => (entry.1.name, entry.2)).find?
              (fun variant => variant.1 = tag) = some (entry.1.name, entry.2) := by
            rw [List.find?_map]
            exact congrArg _ hentry
          rw [pickVariant_of_find? hsome]
          exact h entry (List.mem_of_find?_eq_some hentry)
      | _ => exact yields_decodeCustomType_of_none (yields_field htag (yields_string _))
  | _ => exact yields_decodeCustomType_of_none (yields_field_of_ne (by simp))

theorem Combines.yields {γ : Type} {slots : List γ} {decoder : γ → Val} {outcome : γ → Option Val}
    (h : ∀ slot ∈ slots, Yields schema.toElm (decoder slot) json (outcome slot)) {name : String}
    {d : Val} (hd : Combines name (slots.map decoder) d) :
    Yields schema.toElm d json ((slots.mapM outcome).map (.ctor name)) := by
  have happly : ∀ vs : List Val, vs.foldlM (apply schema.toElm) (.ctor name []) =
      some (.ctor name vs) := fun _ => foldlM_apply_ctor
  have houtcome : (slots.mapM outcome).map (.ctor name) = (slots.mapM outcome).bind fun vs =>
      vs.foldlM (apply schema.toElm) (.ctor name []) := by
    rw [Option.map_eq_bind]
    exact Option.bind_congr fun vs _ => (happly vs).symm
  rw [houtcome]
  cases hd with
  | map => exact yields_map h fun vs _ => ⟨_, happly vs⟩
  | pipeline =>
    refine yields_pipeline h (yields_succeed (.ctor name []) json) ?_
    rintro _ ⟨⟩ vs -
    exact ⟨_, happly vs⟩

theorem decodeVariantArg_eq (i : Nat) (d : Val) :
    decodeVariantArg i d = .decoder (.field (Wire.argKey i) d) := rfl

/-- The decoder of a constructor accepts its arguments. -/
theorem VariantOf.yields (hparts : ∀ part ∈ json.parts, Agrees schema part) {ctor : Ctor} {d : Val}
    {slots : List (Ty × Val)} (h : VariantOf schema ctor d slots) :
    Yields schema.toElm d json
      ((arguments? schema json ctor.arguments).map fun values =>
        Val.ofValue (.variant ctor.name values)) := by
  have hplaces : ∀ place ∈ slots.zipIdx, Yields schema.toElm
      (decodeVariantArg place.2 place.1.2) json
      ((member? schema json (Wire.argKey place.2) place.1.1).map Val.ofValue) := by
    intro place hplace
    rw [decodeVariantArg_eq]
    exact yields_member hparts (Wire.argKey place.2)
      (h.decoders place.1 (List.fst_mem_of_mem_zipIdx hplace))
  have houtcome : (arguments? schema json ctor.arguments).map (fun values =>
      Val.ofValue (.variant ctor.name values)) = (slots.zipIdx.mapM fun place =>
        (member? schema json (Wire.argKey place.2) place.1.1).map Val.ofValue).map
          (.ctor ctor.name) := by
    rw [arguments?, h.types, List.zipIdx_map, List.mapM_map, mapM_map_option, Option.map_map]
    refine congrArg (fun f => Option.map f _) (funext fun values => ?_)
    rw [Val.ofValue, ofValues_eq]
    rfl
  rw [houtcome]
  exact h.combines.yields hplaces

/-- A type with constructors. -/
theorem yields_tagged (hparts : ∀ part ∈ json.parts, Agrees schema part) {type : Ty}
    {label : String} {entries : List (Ctor × Val)}
    (hshape : schema.shape type = .ok (.tagged label (entries.map Prod.fst)))
    (hentries : ∀ entry ∈ entries, ∃ slots, VariantOf schema entry.1 entry.2 slots) :
    Yields schema.toElm
      (decodeCustomType (entries.map fun entry => decodeVariant entry.1.name entry.2)) json
      ((decode? schema type json).map Val.ofValue) := by
  have hvariants : ∀ entry ∈ entries, Yields schema.toElm entry.2 json
      (((arguments? schema json entry.1.arguments).map (.variant entry.1.name)).map
        Val.ofValue) := by
    intro entry hentry
    obtain ⟨slots, hslots⟩ := hentries entry hentry
    rw [Option.map_map]
    exact hslots.yields hparts
  rw [Wire.decode?_tagged hshape, Option.map_bind]
  exact @yields_constructor schema json entries (fun ctor =>
    ((arguments? schema json ctor.arguments).map (.variant ctor.name)).map Val.ofValue) hvariants

theorem VariantOf.one {name : String} {type : Ty} {d : Val} (h : DecoderOf schema type d) :
    VariantOf schema ⟨name, [type]⟩ (.decoder (.map (.ctor name []) [decodeVariantArg 0 d]))
      [(type, d)] where
  types := rfl
  decoders := by simpa using h
  combines := .map

theorem VariantOf.none {name : String} :
    VariantOf schema ⟨name, []⟩ (.decoder (.succeed (.ctor name []))) [] where
  types := rfl
  decoders := by simp
  combines := .pipeline

/-! ## Decoders of types -/

theorem yields_char (json : Json) :
    Yields schema.toElm (.decoder (.andThen (.builtin .pickChar []) (.decoder .string))) json
      ((decode? schema .char json).map Val.ofValue) := by
  rw [Wire.decode?_char]
  cases json with
  | string s =>
    have hpick : apply schema.toElm (.builtin .pickChar []) (.string s) = some (pickChar s) := by
      rw [apply_builtin_last _ rfl, call_eq_build rfl]
      rfl
    refine yields_andThen (yields_string (.string s)) hpick ?_
    rw [pickChar]
    show Yields _ _ _ (((Wire.charOf? s).map Value.char).map Val.ofValue)
    rw [Wire.charOf?]
    cases s.toList with
    | nil => exact yields_fail _ _
    | cons c rest =>
      cases rest with
      | nil => exact yields_succeed _ _
      | cons d rest => exact yields_fail _ _
  | _ => exact yields_andThen_of_none (yields_string _)

theorem yields_int_decode? (json : Json) :
    Yields schema.toElm (.decoder .int) json ((decode? schema .int json).map Val.ofValue) := by
  rw [Wire.decode?_int]
  have h := @yields_int schema.toElm json
  cases json with
  | number n =>
    have houtcome : ((n.toInt?.bind fun i => if Wire.isSafeInt i then some i else none).map
        Value.int).map Val.ofValue =
          n.toInt?.bind fun i => if isElmInt i then some (.int i) else none := by
      cases n.toInt? with
      | none => rfl
      | some i =>
        by_cases hsafe : Wire.isSafeInt i
        · have helm : isElmInt i := hsafe
          simp [hsafe, helm, Val.ofValue]
        · have helm : ¬ isElmInt i := hsafe
          simp [hsafe, helm]
    rw [houtcome]
    exact h
  | _ => exact h

theorem yields_list_decode? (hparts : ∀ part ∈ json.parts, Agrees schema part) {item : Ty} {d : Val}
    (hitem : DecoderOf schema item d) :
    Yields schema.toElm (.decoder (.list d)) json
      ((decode? schema (.list item) json).map Val.ofValue) := by
  rw [Wire.decode?_list]
  cases json with
  | array items =>
    have h := yields_list fun part hpart => hparts part hpart _ _ hitem
    rw [mapM_map_option, Option.map_map] at h
    rw [Option.map_map]
    have hlist : (Val.ofValue ∘ Value.list) = Val.list ∘ List.map Val.ofValue := by
      funext values
      rw [Function.comp_apply, Val.ofValue, ofValues_eq]
      rfl
    rw [hlist]
    exact h
  | _ => exact yields_list_of_ne (by simp)

/-- **A decoder accepts what the reference decoder accepts**, if this is so on the parts of the
message. -/
theorem DecoderOf.yields (hparts : ∀ part ∈ json.parts, Agrees schema part) {type : Ty} {d : Val}
    (h : DecoderOf schema type d) (hnamed : ∀ name, type ≠ .named name) :
    Yields schema.toElm d json ((decode? schema type json).map Val.ofValue) := by
  cases h with
  | unit =>
    rw [Wire.decode?_unit, Option.map_map, Option.map_eq_bind]
    exact @yields_constructor schema json [(⟨Wire.unitTag, []⟩, .decoder (.succeed .unit))]
      (fun _ => some .unit) (by simp [yields_succeed])
  | bool =>
    rw [Wire.decode?_bool]
    have h := @yields_bool schema.toElm json
    cases json <;> exact h
  | int => exact yields_int_decode? json
  | float =>
    rw [Wire.decode?_float]
    have h := @yields_float schema.toElm json
    cases json <;> exact h
  | char => exact yields_char json
  | string =>
    rw [Wire.decode?_string]
    have h := @yields_string schema.toElm json
    cases json <;> exact h
  | list hitem => exact yields_list_decode? hparts hitem
  | pair hfirst hsecond =>
    refine @yields_tuple schema json hparts _ [(_, _), (_, _)] (by simp)
      (Schema.shape_of_view rfl) (by simp [hfirst, hsecond]) (.builtin .makePair []) ?_
    intro vs hlength
    obtain ⟨a, b, rfl⟩ := List.length_eq_two.1 hlength
    rw [foldlM_apply_builtin rfl, call_eq_build rfl]
    rfl
  | triple hfirst hsecond hthird =>
    refine @yields_tuple schema json hparts _ [(_, _), (_, _), (_, _)] (by simp)
      (Schema.shape_of_view rfl) (by simp [hfirst, hsecond, hthird]) (.builtin .makeTriple []) ?_
    intro vs hlength
    obtain ⟨a, b, c, rfl⟩ := List.length_eq_three.1 hlength
    rw [foldlM_apply_builtin rfl, call_eq_build rfl]
    rfl
  | record hne hslots hbuilder => exact yields_record hparts hne hslots hbuilder
  | @maybe item d hitem =>
    have hentries : ∀ entry ∈ [(Ctor.mk Wire.just [item],
        Val.decoder (.map (.ctor "Just" []) [decodeVariantArg 0 d])),
        (⟨Wire.nothing, []⟩, .decoder (.succeed (.ctor "Nothing" [])))],
        ∃ slots, VariantOf schema entry.1 entry.2 slots :=
      List.forall_mem_cons.2 ⟨⟨_, .one hitem⟩, List.forall_mem_singleton.2 ⟨_, .none⟩⟩
    exact yields_tagged hparts (Schema.shape_of_view rfl) hentries
  | @result error ok d e herror hok =>
    have hentries : ∀ entry ∈ [(Ctor.mk Wire.ok [ok],
        Val.decoder (.map (.ctor "Ok" []) [decodeVariantArg 0 e])),
        (⟨Wire.err, [error]⟩, .decoder (.map (.ctor "Err" []) [decodeVariantArg 0 d]))],
        ∃ slots, VariantOf schema entry.1 entry.2 slots :=
      List.forall_mem_cons.2 ⟨⟨_, .one hok⟩, List.forall_mem_singleton.2 ⟨_, .one herror⟩⟩
    exact yields_tagged hparts (Schema.shape_of_view rfl) hentries
  | @named name => exact absurd rfl (hnamed name)

end

end ElmWire.Elm
