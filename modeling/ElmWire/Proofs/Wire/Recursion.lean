import Mathlib.Algebra.Order.BigOperators.Group.List
import Mathlib.Algebra.Order.Group.Nat
import ElmWire.Proofs.Wire.Format

/-!
# The recursion of the codec

Encoding goes down a value and decoding goes down JSON, and they do it in the same way.  At a shape,
a codec looks at what is in front of it and finds either a reason to fail or a `Plan`: which parts
to go into, at which types and in which order, and how to put the results together.  Nothing else
happens at that level, and only parts are gone into, at types of the shape (`PlanIn`).

* `encodePlan`, `decodePlan` — the plans of the two codecs.
* `Codec` — a codec in terms of its plans, with what the proofs about its recursion rest on.
* `Codec.Computes` — a function does what the codec plans.  `encode` and `decode` do
  (`encoding_computes`, `decoding_computes`).

So what is to be said about the recursion of both is said of a `Codec` once: which errors can come
out of it, and how deep it goes.
-/

set_option autoImplicit false
namespace ElmWire.Wire

/-! ## Plans -/

/-- The types of the places inside a message of a shape. -/
def Shape.types : Shape → List Ty
  | .list item => [item]
  | .tuple items => items
  | .record fields => fields.map Prod.snd
  | .tagged _ ctors => ctors.flatMap Ctor.arguments
  | _ => []

/-- Is the schema to blame for an error, and not the message? -/
def Error.ofSchema : Error → Bool
  | .undefinedType _ | .circularAlias _ => true
  | _ => false

/-- What is to be done with something at a shape, where `σ` is what a codec goes down and `τ` what
it makes of it. -/
structure Plan (σ τ : Type) where
  /-- The parts to go into from left to right, each with the type it has there.  A part that is
  missing is only missed when its turn comes. -/
  slots : List (Except Error (Ty × σ))
  /-- What the results make together. -/
  assemble : List τ → τ

/-- Goes into the parts one after the other. -/
def Plan.follow {m : Type → Type} [Monad m] {σ τ : Type} (plan : Plan σ τ)
    (visit : Except Error (Ty × σ) → m τ) : m τ :=
  plan.assemble <$> plan.slots.mapM visit

/-- A plan without parts to go into. -/
def Plan.leaf {σ τ : Type} (result : τ) : Plan σ τ := ⟨[], fun _ => result⟩

/-- Where to find a field among named members. -/
def fieldSlot {σ : Type} (members : List (String × σ)) (field : String × Ty) :
    Except Error (Ty × σ) :=
  match members.lookup field.1 with
  | none => .error (.missingField field.1)
  | some part => .ok (field.2, part)

/-- The plan of the encoder.  A shape without parts does not look at the schema. -/
def encodePlan : Shape → Value → Except Error (Plan Value Json)
  | .list item, .list values => .ok ⟨values.map fun value => .ok (item, value), .array⟩
  | .tuple types, .tuple values =>
    if types.length ≠ values.length then .error (.wrongArity types.length values.length)
    else .ok ⟨(types.zip values).map .ok, .array⟩
  | .record fields, .record values =>
    .ok ⟨fields.map (fieldSlot values),
      fun results => .object (Members.ofList ((fields.map Prod.fst).zip results))⟩
  | .tagged _ ctors, .variant name values => do
    let ctor ← ctor? ctors name
    if ctor.arguments.length ≠ values.length then
      .error (.wrongArity ctor.arguments.length values.length)
    else .ok ⟨(ctor.arguments.zip values).map .ok, envelope name⟩
  | shape, value => (encodeShape ⟨[]⟩ shape value).map .leaf

/-- The plan of the decoder. -/
def decodePlan : Shape → Json → Except Error (Plan Json Value)
  | .list item, .array items => .ok ⟨items.map fun json => .ok (item, json), .list⟩
  | .tuple types, .array items =>
    if items.length < types.length then .error (.wrongArity types.length items.length)
    else .ok ⟨(types.zip items).map .ok, .tuple⟩
  | .record fields, .object members =>
    .ok ⟨fields.map (fieldSlot members),
      fun results => .record (Members.ofList ((fields.map Prod.fst).zip results))⟩
  | .tagged _ ctors, .object members => do
    let ctor ← tag? ctors members
    .ok ⟨(ctor.arguments.mapIdx fun i type => (argKey i, type)).map (fieldSlot members),
      .variant ctor.name⟩
  | shape, json => (decodeShape ⟨[]⟩ shape json).map .leaf

/-! ## The codecs follow their plans -/

section

variable {σ τ : Type}

/-- Goes into a part at its type. -/
def atPlace (run : Ty → σ → Except Error τ) (slot : Except Error (Ty × σ)) : Except Error τ :=
  slot >>= fun place => run place.1 place.2

theorem map_eq_bind_pure {α β : Type} (f : α → β) (x : Except Error α) :
    f <$> x = x >>= fun a => pure (f a) := by
  cases x <;> rfl

theorem error_of_map {α β : Type} {f : α → β} {x : Except Error α} {e : Error}
    (h : f <$> x = .error e) : x = .error e := by
  cases x with
  | error e' => cases h; rfl
  | ok a => cases h

/-- Going through fields by their names is going through their slots. -/
theorem eachField_eq {members : List (String × σ)} {actions : List (String × (Ty → Except Error τ))}
    {run : Ty → σ → Except Error τ}
    (hactions : ∀ name, actions.lookup name =
      (members.lookup name).map fun part type => run type part) (fields : List (String × Ty)) :
    eachField actions fields =
      ((fields.map (fieldSlot members)).mapM (atPlace run)).map ((fields.map Prod.fst).zip ·) := by
  induction fields with
  | nil => rfl
  | cons field rest ih =>
    rw [eachField] at ih ⊢
    rw [List.mapM_cons, ih, List.map_cons, List.map_cons, List.mapM_cons, hactions, atPlace,
      fieldSlot]
    cases members.lookup field.1 with
    | none => rfl
    | some part =>
      show ((run field.2 part).map _ >>= _) = ((run field.2 part) >>= _).map _
      cases run field.2 part with
      | error e => rfl
      | ok result => cases (rest.map (fieldSlot members)).mapM (atPlace run) <;> rfl

/-- Items of one type are slots of that type. -/
theorem mapM_items (run : Ty → σ → Except Error τ) (item : Ty) (parts : List σ) :
    (parts.map fun part => (Except.ok (item, part) : Except Error (Ty × σ))).mapM (atPlace run) =
      parts.mapM (run item) := by
  rw [List.mapM_map]
  rfl

theorem mapM_places (run : Ty → σ → Except Error τ) (places : List (Ty × σ)) :
    (places.map (Except.ok : Ty × σ → Except Error (Ty × σ))).mapM (atPlace run) =
      places.mapM fun place => run place.1 place.2 := by
  rw [List.mapM_map]
  rfl

theorem encodeShape_eq_follow (schema : Schema) (shape : Shape) (value : Value) :
    encodeShape schema shape value =
      encodePlan shape value >>= fun plan => plan.follow (atPlace (encode schema)) := by
  fun_cases encodePlan shape value with
  | case1 item values =>
    show _ = Json.array <$> _
    rw [encodeShape, encodeItems_eq, mapM_items, map_eq_bind_pure]
  | case2 types values hlength =>
    rw [encodeShape, if_pos hlength]
    rfl
  | case3 types values hlength =>
    show _ = Json.array <$> _
    rw [encodeShape, if_neg hlength, encodeEach_eq, mapM_places, map_eq_bind_pure]
  | case4 fields values =>
    show _ = _ <$> _
    rw [encodeShape, eachField_eq (lookup_fieldEncoders schema values)]
    cases (fields.map (fieldSlot values)).mapM (atPlace (encode schema)) <;> rfl
  | case5 label ctors name values =>
    rw [encodeShape]
    cases ctor? ctors name with
    | error e => rfl
    | ok ctor =>
      show (if _ then _ else _) = (if _ then _ else _) >>= _
      by_cases hlength : ctor.arguments.length ≠ values.length
      · rw [if_pos hlength, if_pos hlength]
        rfl
      · show _ = _
        rw [if_neg hlength, if_neg hlength, encodeEach_eq, ← mapM_places]
        exact (map_eq_bind_pure _ _).symm
  | case6 shape value hlist htuple hrecord hvariant =>
    have hleaf : encodeShape schema shape value = encodeShape ⟨[]⟩ shape value := by
      cases shape <;> cases value <;> simp_all [encodeShape]
      exact absurd rfl (hvariant _ _ _ _ rfl rfl rfl)
    rw [hleaf]
    cases encodeShape ⟨[]⟩ shape value <;> rfl

theorem decodeShape_eq_follow (schema : Schema) (shape : Shape) (json : Json) :
    decodeShape schema shape json =
      decodePlan shape json >>= fun plan => plan.follow (atPlace (decode schema)) := by
  fun_cases decodePlan shape json with
  | case1 item items =>
    show _ = Value.list <$> _
    rw [decodeShape, decodeItems_eq, mapM_items, map_eq_bind_pure]
  | case2 types items hlength =>
    rw [decodeShape, if_pos hlength]
    rfl
  | case3 types items hlength =>
    show _ = Value.tuple <$> _
    rw [decodeShape, if_neg hlength, decodeEach_eq, mapM_places, map_eq_bind_pure]
  | case4 fields members =>
    show _ = _ <$> _
    rw [decodeShape, eachField_eq (lookup_memberDecoders schema members)]
    cases (fields.map (fieldSlot members)).mapM (atPlace (decode schema)) <;> rfl
  | case5 label ctors members =>
    rw [decodeShape]
    cases tag? ctors members with
    | error e => rfl
    | ok ctor =>
      show (eachField _ _ >>= _) = _ <$> _
      rw [eachField_eq (lookup_memberDecoders schema members)]
      cases hresults : List.mapM (atPlace (decode schema)) _ with
      | error e => rfl
      | ok results =>
        have hlength := (mapM_eq_ok_iff.1 hresults).length_eq
        rw [List.length_map] at hlength
        show Except.ok (Value.variant ctor.name ((List.zip _ results).map Prod.snd)) = _
        rw [List.map_snd_zip (by rw [List.length_map, hlength])]
        rfl
  | case6 shape json hlist htuple hrecord hvariant =>
    have hleaf : decodeShape schema shape json = decodeShape ⟨[]⟩ shape json := by
      cases shape <;> cases json <;> simp_all [decodeShape]
    rw [hleaf]
    cases decodeShape ⟨[]⟩ shape json <;> rfl

/-! ## What plans may ask for -/

/-- If it fails, the message is to blame. -/
def BlamesMessage {α : Type} (x : Except Error α) : Prop := ∀ e, x = .error e → e.ofSchema = false

theorem BlamesMessage.ok {α : Type} (a : α) : BlamesMessage (.ok a) := by
  rintro e ⟨⟩

theorem BlamesMessage.error {α : Type} {e : Error} (h : e.ofSchema = false) :
    BlamesMessage (.error e : Except Error α) := by
  rintro _ ⟨⟩
  exact h

theorem BlamesMessage.bind {α β : Type} {x : Except Error α} {f : α → Except Error β}
    (hx : BlamesMessage x) (hf : ∀ a, BlamesMessage (f a)) : BlamesMessage (x >>= f) := by
  cases x with
  | error e => exact .error (hx e rfl)
  | ok a => exact hf a

theorem blamesMessage_ctor? (ctors : List Ctor) (name : String) :
    BlamesMessage (ctor? ctors name) := by
  rw [ctor?]
  split
  · exact .ok _
  · exact .error rfl

theorem blamesMessage_tag? (ctors : List Ctor) (members : List (String × Json)) :
    BlamesMessage (tag? ctors members) := by
  rw [tag?]
  split
  · exact .error rfl
  · exact blamesMessage_ctor? ctors _
  · exact .error rfl

theorem blamesMessage_safeInt? (n : Json.Number) : BlamesMessage (safeInt? n) := by
  rw [safeInt?]
  split
  · split
    · exact .ok _
    · exact .error rfl
  · exact .error rfl

theorem blamesMessage_onlyChar? (s : String) : BlamesMessage (onlyChar? s) := by
  rw [onlyChar?]
  split
  · exact .ok _
  · exact .error rfl

theorem blamesMessage_members? (json : Json) : BlamesMessage (members? json) := by
  rw [members?.eq_def]
  split
  · exact .ok _
  · exact .error rfl

/-- A slot asks for one of some parts at one of some types, or misses something in the message. -/
structure SlotIn (types : List Ty) (parts : List σ) (slot : Except Error (Ty × σ)) : Prop where
  blames : BlamesMessage slot
  type_mem : ∀ place, slot = .ok place → place.1 ∈ types
  part_mem : ∀ place, slot = .ok place → place.2 ∈ parts

theorem SlotIn.ok {types : List Ty} {parts : List σ} {place : Ty × σ} (htype : place.1 ∈ types)
    (hpart : place.2 ∈ parts) : SlotIn types parts (.ok place) := by
  refine ⟨.ok place, ?_, ?_⟩
  · rintro _ ⟨⟩
    exact htype
  · rintro _ ⟨⟩
    exact hpart

theorem slotIn_fieldSlot {types : List Ty} {members : List (String × σ)} {field : String × Ty}
    (h : field.2 ∈ types) : SlotIn types (members.map Prod.snd) (fieldSlot members field) := by
  rw [fieldSlot]
  cases hpart : members.lookup field.1 with
  | none => exact ⟨.error rfl, by rintro _ ⟨⟩, by rintro _ ⟨⟩⟩
  | some part => exact .ok h (List.mem_map.2 ⟨_, Members.mem_of_lookup_eq_some hpart, rfl⟩)

/-- A plan asks only for some parts at some types. -/
structure PlanIn (types : List Ty) (parts : List σ) (plan : Except Error (Plan σ τ)) : Prop where
  blames : BlamesMessage plan
  slots : ∀ found, plan = .ok found → ∀ slot ∈ found.slots, SlotIn types parts slot

theorem PlanIn.ok {types : List Ty} {parts : List σ} {plan : Plan σ τ}
    (h : ∀ slot ∈ plan.slots, SlotIn types parts slot) : PlanIn types parts (.ok plan) := by
  refine ⟨.ok plan, ?_⟩
  rintro _ ⟨⟩
  exact h

theorem PlanIn.error {types : List Ty} {parts : List σ} {e : Error} (h : e.ofSchema = false) :
    PlanIn types parts (.error e : Except Error (Plan σ τ)) := by
  refine ⟨.error h, ?_⟩
  rintro _ ⟨⟩

theorem PlanIn.leaf {types : List Ty} {parts : List σ} {result : Except Error τ}
    (h : BlamesMessage result) : PlanIn types parts (result.map (Plan.leaf : τ → Plan σ τ)) := by
  cases result with
  | error e => exact .error (h e rfl)
  | ok result => exact .ok (by simp [Plan.leaf])

theorem slotIn_zip {types others : List Ty} {parts : List σ} (h : others ⊆ types) :
    ∀ slot ∈ (others.zip parts).map (Except.ok : Ty × σ → Except Error (Ty × σ)),
      SlotIn types parts slot := by
  intro slot hmem
  obtain ⟨place, hplace, rfl⟩ := List.mem_map.1 hmem
  obtain ⟨htype, hpart⟩ := List.of_mem_zip hplace
  exact .ok (h htype) hpart

theorem mem_types_of_ctor {ctors : List Ctor} {ctor : Ctor} (h : ctor ∈ ctors) (label : String) :
    ctor.arguments ⊆ (Shape.tagged label ctors).types := by
  intro type htype
  exact List.mem_flatMap.2 ⟨ctor, h, htype⟩

theorem encodePlan_in (shape : Shape) (value : Value) :
    PlanIn shape.types value.parts (encodePlan shape value) := by
  fun_cases encodePlan shape value with
  | case1 item values =>
    refine .ok fun slot hmem => ?_
    obtain ⟨part, hpart, rfl⟩ := List.mem_map.1 hmem
    exact .ok (List.mem_singleton_self item) hpart
  | case2 types values hlength => exact .error rfl
  | case3 types values hlength => exact .ok (slotIn_zip (List.Subset.refl types))
  | case4 fields values =>
    refine .ok fun slot hmem => ?_
    obtain ⟨field, hfield, rfl⟩ := List.mem_map.1 hmem
    exact slotIn_fieldSlot (List.mem_map_of_mem hfield)
  | case5 label ctors name values =>
    cases hctor : ctor? ctors name with
    | error e => exact .error (blamesMessage_ctor? ctors name e hctor)
    | ok ctor =>
      show PlanIn _ _ (if _ then _ else _)
      split
      · exact .error rfl
      · exact .ok (slotIn_zip (mem_types_of_ctor (mem_of_ctor? hctor) label))
  | case6 shape value hlist htuple hrecord hvariant =>
    refine .leaf ?_
    fun_cases encodeShape ⟨[]⟩ shape value with
    | case1 | case2 | case3 | case5 | case7 | case8 => exact .ok _
    | case4 | case6 | case14 => exact .error rfl
    | case9 => exact (hlist _ _ rfl rfl).elim
    | case10 | case11 => exact (htuple _ _ rfl rfl).elim
    | case12 => exact (hrecord _ _ rfl rfl).elim
    | case13 => exact (hvariant _ _ _ _ rfl rfl).elim

theorem decodePlan_in (shape : Shape) (json : Json) :
    PlanIn shape.types json.parts (decodePlan shape json) := by
  fun_cases decodePlan shape json with
  | case1 item items =>
    refine .ok fun slot hmem => ?_
    obtain ⟨part, hpart, rfl⟩ := List.mem_map.1 hmem
    exact .ok (List.mem_singleton_self item) hpart
  | case2 types items hlength => exact .error rfl
  | case3 types items hlength => exact .ok (slotIn_zip (List.Subset.refl types))
  | case4 fields members =>
    refine .ok fun slot hmem => ?_
    obtain ⟨field, hfield, rfl⟩ := List.mem_map.1 hmem
    exact slotIn_fieldSlot (List.mem_map_of_mem hfield)
  | case5 label ctors members =>
    cases hctor : tag? ctors members with
    | error e => exact .error (blamesMessage_tag? ctors members e hctor)
    | ok ctor =>
      refine .ok fun slot hmem => ?_
      obtain ⟨field, hfield, rfl⟩ := List.mem_map.1 hmem
      obtain ⟨i, hi, rfl⟩ := List.mem_mapIdx.1 hfield
      obtain ⟨tag, htag⟩ := exists_tag_of_tag? hctor
      exact slotIn_fieldSlot (mem_types_of_ctor (mem_of_ctor? htag) label (List.getElem_mem hi))
  | case6 shape json hlist htuple hrecord hvariant =>
    refine .leaf ?_
    fun_cases decodeShape ⟨[]⟩ shape json with
    | case1 | case5 | case9 => exact .ok _
    | case2 | case4 | case6 | case8 | case10 | case12 | case15 | case17 | case20 => exact .error rfl
    | case3 n => exact (blamesMessage_safeInt? n).bind fun _ => .ok _
    | case7 s => exact (blamesMessage_onlyChar? s).bind fun _ => .ok _
    | case11 => exact (hlist _ _ rfl rfl).elim
    | case13 | case14 => exact (htuple _ _ rfl rfl).elim
    | case16 => exact (hrecord _ _ rfl rfl).elim
    | case18 json =>
      refine (blamesMessage_members? json).bind fun members => ?_
      exact (blamesMessage_tag? unitCtors members).bind fun _ => .ok _
    | case19 => exact (hvariant _ _ _ rfl rfl).elim

end

/-! ## Codecs -/

/-- A codec by its plans. -/
structure Codec (σ τ : Type) where
  /-- What is directly inside. -/
  parts : σ → List σ
  /-- How much there is inside, itself included. -/
  size : σ → Nat
  size_eq : ∀ s : σ, size s = 1 + ((parts s).map size).sum
  plan : Shape → σ → Except Error (Plan σ τ)
  plan_in : ∀ (shape : Shape) (s : σ), PlanIn shape.types (parts s) (plan shape s)

/-- The encoder. -/
def encoding : Codec Value Json where
  parts := Value.parts
  size := Value.size
  size_eq := Value.size_eq
  plan := encodePlan
  plan_in := encodePlan_in

/-- The decoder. -/
def decoding : Codec Json Value where
  parts := Json.parts
  size := Json.size
  size_eq := Json.size_eq
  plan := decodePlan
  plan_in := decodePlan_in

namespace Codec

variable {σ τ : Type} {c : Codec σ τ} {schema : Schema} {run : Ty → σ → Except Error τ}

/-- The function does what the codec plans, over a schema. -/
def Computes (c : Codec σ τ) (schema : Schema) (run : Ty → σ → Except Error τ) : Prop :=
  ∀ type s, run type s =
    schema.shape type >>= fun shape => c.plan shape s >>= fun plan => plan.follow (atPlace run)

theorem size_lt (c : Codec σ τ) {s part : σ} (h : part ∈ c.parts s) : c.size part < c.size s := by
  have hle := List.le_sum_of_mem (List.mem_map_of_mem (f := c.size) h)
  rw [c.size_eq s]
  omega

/-- To prove something of everything that a codec goes down, one may assume it of the parts. -/
theorem induction_parts (c : Codec σ τ) {P : σ → Prop}
    (h : ∀ s, (∀ part ∈ c.parts s, P part) → P s) (s : σ) : P s :=
  h s fun part _hpart => induction_parts c h part
termination_by c.size s
decreasing_by exact c.size_lt _hpart

/-- An error that the schema is to blame for was there before: either the type comes down to no
shape, or it is the error of a part. -/
theorem Computes.error_cases (hc : c.Computes schema run) {type : Ty} {s : σ} {e : Error}
    (h : run type s = .error e) (he : e.ofSchema = true) :
    schema.shape type = .error e ∨
      ∃ shape, schema.shape type = .ok shape ∧
        ∃ t ∈ shape.types, ∃ part ∈ c.parts s, run t part = .error e := by
  rw [hc type s] at h
  rcases bind_eq_error_iff.1 h with hshape | ⟨shape, hshape, h⟩
  · exact .inl hshape
  · refine .inr ⟨shape, hshape, ?_⟩
    have hin := c.plan_in shape s
    rcases bind_eq_error_iff.1 h with hplan | ⟨plan, hplan, h⟩
    · simp [hin.blames e hplan] at he
    · obtain ⟨slot, hslot, h⟩ := exists_of_mapM_eq_error (error_of_map h)
      have hslot := hin.slots plan hplan slot hslot
      rcases bind_eq_error_iff.1 h with hmissing | ⟨place, hplace, h⟩
      · simp [hslot.blames e hmissing] at he
      · exact ⟨_, hslot.type_mem place hplace, _, hslot.part_mem place hplace, h⟩

end Codec

theorem encoding_computes (schema : Schema) : encoding.Computes schema (encode schema) := by
  intro type value
  rw [encode]
  exact congrArg _ (funext fun shape => encodeShape_eq_follow schema shape value)

theorem decoding_computes (schema : Schema) : decoding.Computes schema (decode schema) := by
  intro type json
  rw [decode]
  exact congrArg _ (funext fun shape => decodeShape_eq_follow schema shape json)

end ElmWire.Wire
