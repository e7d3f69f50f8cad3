import Mathlib.Tactic.IntervalCases
import ElmWire.Proofs.Elm.Decoding

/-!
# Generated decoders

The Elm decoders that are generated for a schema accept exactly the messages that the reference
decoder accepts, as the same values.

* `exists_decoderOf` — evaluated, the decoder that is written for a type is the decoder of the type
  (`DecoderOf`), whichever variables are in use.
* `agrees` — on every message the decoder of a type accepts what the reference decoder accepts.
  The outer induction is on the message.  A reference leads to another decoder on the same message,
  so inside it there is an induction on the number of aliases to follow.
-/

set_option autoImplicit false
namespace ElmWire

/-- The definitions of a schema are such that the generated Elm module is accepted. -/
structure Schema.ElmValid (schema : Schema) : Prop where
  /-- No two types have one name. -/
  distinctTypes : schema.names.Nodup
  /-- No type has the name of one that the toolkit has helpers for. -/
  nonReserved : schema.NonReserved
  /-- Every type that is referred to is defined. -/
  closed : schema.Closed
  /-- No record type has two fields with one name. -/
  distinctFields : schema.DistinctFields
  /-- No two constructors have one name. -/
  distinctCtors : schema.constructors.Nodup
  /-- Types and constructors have names that Elm allows for them. -/
  upperNames : ∀ name ∈ schema.names ++ schema.constructors, isUpperName name
  /-- No alias is an alias of itself. -/
  aliasesEnd : schema.AliasesEnd

namespace Elm

/-! ## Functions that build records -/

section

variable {decls : List Decl} {env : List (String × Val)}

theorem foldlM_apply_recordCtor {fields : List String} {arguments vs : List Val} (hne : vs ≠ [])
    (hlength : arguments.length + vs.length ≤ fields.length) :
    vs.foldlM (apply decls) (.recordCtor fields arguments) =
      some (recordOf fields (arguments ++ vs)) := by
  induction vs generalizing arguments with
  | nil => exact absurd rfl hne
  | cons v vs ih =>
    rw [List.length_cons] at hlength
    rw [List.foldlM_cons, apply]
    show vs.foldlM (apply decls) (recordOf fields (arguments ++ [v])) = _
    cases vs with
    | nil => rfl
    | cons w ws =>
      rw [List.length_cons] at hlength
      rw [recordOf, if_pos (by simp; omega), ih (by simp) (by simp; omega), List.append_assoc]
      rfl

/-- The constructor of a record alias. -/
theorem builds_recordCtor {fields : List String} (hne : fields ≠ []) :
    Builds decls (.recordCtor fields []) fields where
  waits := by
    intro vs _
    cases vs with
    | nil => exact ⟨_, rfl⟩
    | cons v vs => exact ⟨_, foldlM_apply_recordCtor (by simp) (by simp_all; omega)⟩
  ends := by
    intro vs hlength
    have hvs : vs ≠ [] := by
      rintro rfl
      exact hne (List.length_eq_zero_iff.1 hlength.symm)
    rw [foldlM_apply_recordCtor hvs (by simp [hlength]), recordOf, List.nil_append,
      if_neg (by omega)]

theorem exists_foldlM_apply_closure {xs : List String} {body : Expr} {vs : List Val}
    (hlength : vs.length < xs.length) :
    ∃ f, vs.foldlM (apply decls) (.closure env (xs.map .var) body) = some f := by
  induction vs generalizing env xs with
  | nil => exact ⟨_, rfl⟩
  | cons v vs ih =>
    match xs, hlength with
    | x :: y :: xs, hlength =>
      obtain ⟨f, hf⟩ := @ih ((x, v) :: env) (y :: xs) (by simpa using hlength)
      refine ⟨f, ?_⟩
      rw [List.foldlM_cons, List.map_cons, List.map_cons, apply, Pattern.bind]
      · exact hf
      · simp

/-- A function with all of its arguments. -/
theorem foldlM_apply_closure {xs : List String} (hne : xs ≠ []) {body : Expr} {vs : List Val}
    (hlength : vs.length = xs.length) :
    vs.foldlM (apply decls) (.closure env (xs.map .var) body) =
      eval decls ((xs.zip vs).reverse ++ env) body := by
  induction vs generalizing env xs with
  | nil => exact absurd (List.length_eq_zero_iff.1 hlength.symm) hne
  | cons v vs ih =>
    match xs, hlength with
    | [x], hlength =>
      cases List.length_eq_zero_iff.1 (Nat.succ.inj hlength)
      rw [List.foldlM_cons, List.map_cons, List.map_nil, apply_lambda]
      simp
    | x :: y :: xs, hlength =>
      have hrest := @ih ((x, v) :: env) (y :: xs) (by simp) (by simpa using hlength)
      rw [List.foldlM_cons, List.map_cons, List.map_cons, apply, Pattern.bind]
      · rw [List.zip_cons_cons, List.reverse_cons, List.append_assoc]
        exact hrest
      · simp

theorem eval_record {fields : List (String × Expr)} {vs : List Val}
    (h : (fields.map Prod.snd).mapM (eval decls env) = some vs) :
    eval decls env (.record fields) =
      some (.record (Members.ofList ((fields.map Prod.fst).zip vs))) := by
  rw [List.mapM_map] at h
  have hpairs := mapM_map_zip (fun field : String × Expr => eval decls env field.2) Prod.fst fields
  have hfield : (fun field : String × Expr => do return (field.1, ← eval decls env field.2)) =
      fun field => (eval decls env field.2).map fun v => (field.1, v) := by
    funext field
    cases eval decls env field.2 <;> rfl
  rw [eval, hfield, hpairs]
  show (Option.map _ (fields.mapM (eval decls env ∘ Prod.snd))).bind _ = _
  rw [h]
  rfl

/-- A function that is written for a record without a name. -/
theorem builds_closure {fields : List (String × Ty)} (hne : fields ≠ []) {params : List String}
    (hlength : params.length = fields.length) (hnodup : params.Nodup) :
    Builds decls (.closure [] (params.map .var) (.record ((fields.zip params).map
      fun place => (place.1.1, .var place.2)))) (fields.map Prod.fst) where
  waits := by
    intro vs hvs
    exact exists_foldlM_apply_closure (by simpa [hlength] using hvs)
  ends := by
    intro vs hvs
    rw [List.length_map, ← hlength] at hvs
    have hparams : params ≠ [] := by
      rintro rfl
      exact hne (List.length_eq_zero_iff.1 hlength.symm)
    -- The parameters are all different, so each stands for its own argument.
    have hvars : (params.map Expr.var).mapM (eval decls ((params.zip vs).reverse ++ [])) =
        some vs := by
      refine mapM_eq_some_of_forall₂ ?_
      rw [List.forall₂_map_left_iff, List.forall₂_iff_zip]
      refine ⟨hvs.symm, fun {param v} hmem => eval_var_local ?_⟩
      rw [List.append_nil]
      refine Members.lookup_eq_some_of_mem ?_ (List.mem_reverse.2 hmem)
      rw [List.map_reverse, List.nodup_reverse, List.map_fst_zip (Nat.le_of_eq hvs.symm)]
      exact hnodup
    have hexprs : ((fields.zip params).map fun place => (place.1.1, Expr.var place.2)).map
        Prod.snd = params.map Expr.var := by
      conv_rhs => rw [← List.map_snd_zip (Nat.le_of_eq hlength), List.map_map]
      rw [List.map_map]
      rfl
    have hnames : ((fields.zip params).map fun place => (place.1.1, Expr.var place.2)).map
        Prod.fst = fields.map Prod.fst := by
      conv_rhs => rw [← List.map_fst_zip (Nat.le_of_eq hlength.symm), List.map_map]
      rw [List.map_map]
      rfl
    rw [foldlM_apply_closure hparams hvs, eval_record (by rw [hexprs]; exact hvars), hnames]

/-! ## Sending decoders through steps -/

/-- The step hands what the decoder accepts to what a decoder of functions accepts. -/
def Hands (decls : List Decl) (stage : Expr) (d : Val) : Prop :=
  ∃ f, eval decls [] stage = some f ∧ ∀ function,
    apply decls f function = some (.decoder (.map (.builtin .forward []) [d, function]))

theorem foldlM_stages {stages : List Expr} {ds : List Val}
    (h : List.Forall₂ (Hands decls) stages ds) (function : Val) :
    stages.foldlM (fun v stage => do apply decls (← eval decls [] stage) v) function =
      some (pipeline function ds) := by
  induction h generalizing function with
  | nil => rfl
  | cons hfirst _ ih =>
    obtain ⟨f, hf, happly⟩ := hfirst
    rw [List.foldlM_cons, hf]
    show (apply decls f function).bind _ = _
    rw [happly]
    exact ih _

theorem eval_through {head : Expr} {function : Val} (hhead : eval decls [] head = some function)
    {stages : List Expr} {ds : List Val} (h : List.Forall₂ (Hands decls) stages ds) :
    eval decls [] (head.through stages) = some (pipeline function ds) := by
  cases stages with
  | nil =>
    cases h
    exact hhead
  | cons stage rest =>
    rw [← foldlM_stages h function, Expr.through, eval, hhead]
    · rfl
    · simp

end

/-! ## Evaluating decoders -/

section

variable {schema : Schema}

/-- Applied to all of its arguments, a function of the libraries puts them together. -/
theorem eval_call_build (hreserved : schema.NonReserved) {name : String} (f : Builtin)
    (hname : builtins.lookup name = some (.builtin f [])) (hf : f.isHigherOrder = false)
    {arguments : List Expr} {vs : List Val}
    (hvs : List.Forall₂ (fun e v => eval schema.toElm [] e = some v) arguments vs)
    (hlength : vs.length = f.arity) :
    eval schema.toElm [] (.call name arguments) = build f vs := by
  rw [eval_call_full hreserved .nil hname (mapM_eq_some_of_forall₂ hvs) hlength, call_eq_build hf]

theorem eval_succeed (hreserved : schema.NonReserved) {e : Expr} {v : Val}
    (he : eval schema.toElm [] e = some v) :
    eval schema.toElm [] (.call "Json.Decode.succeed" [e]) = some (.decoder (.succeed v)) :=
  eval_call_build hreserved .succeed rfl rfl (.cons he .nil) rfl

theorem hands_decodeRecordField (hreserved : schema.NonReserved) (name : String) {e : Expr}
    {d : Val} (he : eval schema.toElm [] e = some d) :
    Hands schema.toElm (.call Toolkit.decodeRecordField [.string name, e])
      (.decoder (.field name d)) := by
  have hname : eval schema.toElm [] (.string name) = some (.string name) := by rw [eval]
  refine ⟨_, eval_call_partial hreserved .nil rfl
    (mapM_eq_some_of_forall₂ (.cons hname (.cons he .nil))) (Nat.lt_succ_self _),
    fun function => ?_⟩
  rw [apply_builtin_last _ rfl, call_eq_build rfl]
  rfl

theorem hands_decodeAndMap (hreserved : schema.NonReserved) {e : Expr} {d : Val}
    (he : eval schema.toElm [] e = some d) :
    Hands schema.toElm (.call Toolkit.decodeAndMap [e]) d := by
  refine ⟨_, eval_call_partial hreserved .nil rfl (mapM_eq_some_of_forall₂ (.cons he .nil))
    (Nat.lt_succ_self _), fun function => ?_⟩
  rw [apply_builtin_last _ rfl, call_eq_build rfl]
  rfl

/-- The variables for the fields of a record. -/
def fieldVars (fields : List (String × Ty)) (names : Names) : List String :=
  ((fields.mapM fun _ => freshField) names).1

theorem fieldVars_eq (fields : List (String × Ty)) (names : Names) :
    fieldVars fields names =
      (List.range fields.length).map fun i => "field" ++ toString (names.fields + i) :=
  mapM_fresh (fun _ => rfl) (fun _ => rfl) fields names

theorem recordBuilder_none {fields : List (String × Ty)} (hne : fields ≠ []) (names : Names) :
    (recordBuilder none fields names).1 = .lambda ((fieldVars fields names).map .var)
      (.record ((fields.zip (fieldVars fields names)).map
        fun place => (place.1.1, .var place.2))) := by
  cases fields with
  | nil => exact absurd rfl hne
  | cons field rest => rfl

/-- The function that takes the fields of a record without a name. -/
theorem exists_builder {fields : List (String × Ty)} (hne : fields ≠ []) (names : Names) :
    ∃ builder, eval schema.toElm [] (recordBuilder none fields names).1 = some builder ∧
      Builds schema.toElm builder (fields.map Prod.fst) := by
  refine ⟨_, by rw [recordBuilder_none hne, eval], builds_closure hne ?_ ?_⟩
  · rw [fieldVars_eq, List.length_map, List.length_range]
  · rw [fieldVars_eq]
    exact nodup_map_range "field" names.fields fields.length

/-- The decoder of a reference. -/
theorem eval_decoder_named (hreserved : schema.NonReserved) {name : String}
    (hname : schema.contains name) (names : Names) :
    ∃ d, eval schema.toElm [] (decoder (.named name) names).1 = some d ∧
      DecoderOf schema (.named name) d := by
  have hthunk : eval schema.toElm [] (.lambda [.wildcard] (.var (decoderName name))) =
      some (.closure [] [.wildcard] (.var (decoderName name))) := by rw [eval]
  refine ⟨.decoder (.lazy (.closure [] [.wildcard] (.var (decoderName name)))), ?_, .named hname ?_⟩
  · rw [decoder]
    exact eval_call_build hreserved .lazy rfl rfl (.cons hthunk .nil) rfl
  · rw [apply, Pattern.bind]
    exact eval_decoderName .nil hname

mutual

/-- **The decoder that is written for a type is the decoder of the type.** -/
theorem exists_decoderOf (hreserved : schema.NonReserved) :
    ∀ (type : Ty) (names : Names), type.Over schema → type.HasFields →
      ∃ d, eval schema.toElm [] (decoder type names).1 = some d ∧ DecoderOf schema type d
  | .unit, _, _, _ => ⟨_, by rw [decoder]; exact eval_builtin hreserved .nil rfl, .unit⟩
  | .bool, _, _, _ => ⟨_, by rw [decoder]; exact eval_builtin hreserved .nil rfl, .bool⟩
  | .int, _, _, _ => ⟨_, by rw [decoder]; exact eval_builtin hreserved .nil rfl, .int⟩
  | .float, _, _, _ => ⟨_, by rw [decoder]; exact eval_builtin hreserved .nil rfl, .float⟩
  | .char, _, _, _ => ⟨_, by rw [decoder]; exact eval_builtin hreserved .nil rfl, .char⟩
  | .string, _, _, _ => ⟨_, by rw [decoder]; exact eval_builtin hreserved .nil rfl, .string⟩
  | .list item, names, hover, hfields => by
    obtain ⟨d, hd, hitem⟩ := exists_decoderOf hreserved item names hover hfields
    refine ⟨_, ?_, .list hitem⟩
    rw [decoder]
    exact eval_call_build hreserved .list rfl rfl (.cons hd .nil) rfl
  | .maybe item, names, hover, hfields => by
    obtain ⟨d, hd, hitem⟩ := exists_decoderOf hreserved item names hover hfields
    refine ⟨_, ?_, .maybe hitem⟩
    rw [decoder]
    exact eval_call_build hreserved .decodeMaybe rfl rfl (.cons hd .nil) rfl
  | .result error ok, names, hover, hfields => by
    obtain ⟨hover, hover'⟩ := Ty.over_result.1 hover
    obtain ⟨hfields, hfields'⟩ := List.forall_mem_append.1 hfields
    obtain ⟨d, hd, herror⟩ := exists_decoderOf hreserved error names hover hfields
    obtain ⟨e, he, hok⟩ := exists_decoderOf hreserved ok (decoder error names).2 hover' hfields'
    refine ⟨_, ?_, .result herror hok⟩
    rw [decoder]
    exact eval_call_build hreserved .decodeResult rfl rfl (.cons hd (.cons he .nil)) rfl
  | .pair first second, names, hover, hfields => by
    obtain ⟨hover, hover'⟩ := Ty.over_pair.1 hover
    obtain ⟨hfields, hfields'⟩ := List.forall_mem_append.1 hfields
    obtain ⟨d, hd, hfirst⟩ := exists_decoderOf hreserved first names hover hfields
    obtain ⟨e, he, hsecond⟩ :=
      exists_decoderOf hreserved second (decoder first names).2 hover' hfields'
    refine ⟨_, ?_, .pair hfirst hsecond⟩
    rw [decoder]
    exact eval_call_build hreserved .decodeTuple2 rfl rfl (.cons hd (.cons he .nil)) rfl
  | .triple first second third, names, hover, hfields => by
    obtain ⟨hover, hover', hover''⟩ := Ty.over_triple.1 hover
    obtain ⟨hfields, hfields''⟩ := List.forall_mem_append.1 hfields
    obtain ⟨hfields, hfields'⟩ := List.forall_mem_append.1 hfields
    obtain ⟨d, hd, hfirst⟩ := exists_decoderOf hreserved first names hover hfields
    obtain ⟨e, he, hsecond⟩ :=
      exists_decoderOf hreserved second (decoder first names).2 hover' hfields'
    obtain ⟨f, hf, hthird⟩ := exists_decoderOf hreserved third
      (decoder second (decoder first names).2).2 hover'' hfields''
    refine ⟨_, ?_, .triple hfirst hsecond hthird⟩
    rw [decoder]
    exact eval_call_build hreserved .decodeTuple3 rfl rfl (.cons hd (.cons he (.cons hf .nil))) rfl
  | .named name, names, hover, _ =>
    eval_decoder_named hreserved (hover name (List.mem_singleton_self name)) names
  | .record fields, names, hover, hfields => by
    obtain ⟨hne, hfields⟩ := List.forall_mem_cons.1 hfields
    obtain ⟨builder, hbuilder, hbuilds⟩ := @exists_builder schema fields hne names
    obtain ⟨slots, rfl, hslots, hstages⟩ := exists_stages hreserved fields
      (recordBuilder none fields names).2 (fun field hmem => hover.field hmem)
      (fun field hmem => fun record hrecord =>
        hfields record (records_subset_fieldRecords hmem hrecord))
    rw [List.map_map] at hbuilds
    refine ⟨_, ?_, .record (by simpa using hne) hslots hbuilds⟩
    rw [decoder]
    exact eval_through (eval_succeed hreserved hbuilder) hstages

/-- The steps that are written for the fields of a record. -/
theorem exists_stages (hreserved : schema.NonReserved) :
    ∀ (fields : List (String × Ty)) (names : Names), (∀ field ∈ fields, field.2.Over schema) →
      (∀ field ∈ fields, field.2.HasFields) →
      ∃ slots : List (String × Ty × Val), fields = slots.map (fun slot => (slot.1, slot.2.1)) ∧
        (∀ slot ∈ slots, DecoderOf schema slot.2.1 slot.2.2) ∧
        List.Forall₂ (Hands schema.toElm) (fieldDecoders fields names).1
          (slots.map fun slot => .decoder (.field slot.1 slot.2.2))
  | [], _, _, _ => ⟨[], rfl, by simp, by rw [fieldDecoders]; exact .nil⟩
  | (name, type) :: rest, names, hover, hfields => by
    obtain ⟨hover, hrest⟩ := List.forall_mem_cons.1 hover
    obtain ⟨hfields, hrest'⟩ := List.forall_mem_cons.1 hfields
    obtain ⟨d, hd, htype⟩ := exists_decoderOf hreserved type names hover hfields
    obtain ⟨slots, rfl, hslots, hstages⟩ :=
      exists_stages hreserved rest (decoder type names).2 hrest hrest'
    refine ⟨(name, type, d) :: slots, rfl, List.forall_mem_cons.2 ⟨htype, hslots⟩, ?_⟩
    rw [fieldDecoders]
    exact .cons (hands_decodeRecordField hreserved name hd) hstages

end

/-! ## Evaluating the decoders of definitions -/

theorem decodeAlias_record {name : String} {fields : List (String × Ty)} (hne : fields ≠ [])
    (names : Names) : (decodeAlias name (.record fields) names).1 =
      (Expr.call "Json.Decode.succeed" [.var name]).through (fieldDecoders fields names).1 := by
  cases fields with
  | nil => exact absurd rfl hne
  | cons field rest => rfl

/-- The decoder of an alias is the decoder of its type. -/
theorem exists_decodeAlias (hvalid : schema.ElmValid) {name : String} {type : Ty}
    (hmem : TypeDef.alias name type ∈ schema.defs) (hover : type.Over schema)
    (hfields : type.HasFields) (names : Names) :
    ∃ d, eval schema.toElm [] (decodeAlias name type names).1 = some d ∧
      DecoderOf schema type d := by
  cases type with
  | record fields =>
    obtain ⟨hne, hfields⟩ := List.forall_mem_cons.1 hfields
    have hname : name ∈ schema.constructors :=
      List.mem_flatMap.2 ⟨_, hmem, List.mem_singleton_self name⟩
    have hbuilder : eval schema.toElm [] (.var name) =
        some (.recordCtor (fields.map Prod.fst) []) :=
      eval_constructor hvalid.distinctCtors hmem
        (hvalid.upperNames name (List.mem_append_right _ hname)) (if_pos rfl)
    obtain ⟨slots, rfl, hslots, hstages⟩ := exists_stages hvalid.nonReserved fields names
      (fun field hmem => hover.field hmem)
      (fun field hmem => fun record hrecord =>
        hfields record (records_subset_fieldRecords hmem hrecord))
    rw [List.map_map] at hbuilder
    refine ⟨_, ?_, .record (by simpa using hne) hslots (builds_recordCtor (by simpa using hne))⟩
    rw [decodeAlias_record hne]
    exact eval_through (eval_succeed hvalid.nonReserved hbuilder) hstages
  | _ => exact exists_decoderOf hvalid.nonReserved _ names hover hfields

theorem lookup_mapName {n : Nat} (hn : 2 ≤ n) (hle : n ≤ maxMapArity) :
    builtins.lookup ("Json.Decode.map" ++ toString n) = some (.builtin (.map n) []) := by
  rw [maxMapArity] at hle
  interval_cases n <;> rfl

/-- However many arguments a constructor has, their decoders are combined. -/
theorem exists_combine (hreserved : schema.NonReserved) {name : String}
    (hname : eval schema.toElm [] (.var name) = some (.ctor name [])) {arguments : List Expr}
    {ds : List Val}
    (h : List.Forall₂ (fun e d => eval schema.toElm [] e = some d) arguments ds) :
    ∃ d, eval schema.toElm [] (combine name arguments) = some d ∧ Combines name ds d := by
  match arguments, ds, h with
  | [], [], _ => exact ⟨_, eval_succeed hreserved hname, .pipeline⟩
  | [_], [_], h =>
    exact ⟨_, eval_call_build hreserved (.map 1) rfl rfl (.cons hname h) rfl, .map⟩
  | e :: e' :: rest, ds, h =>
    have hlength : ds.length = rest.length + 2 := h.length_eq.symm
    by_cases hle : rest.length + 2 ≤ maxMapArity
    · have hcombine : combine name (e :: e' :: rest) =
          .call ("Json.Decode.map" ++ toString (rest.length + 2)) (.var name :: e :: e' :: rest) :=
        if_pos hle
      refine ⟨_, ?_, .map⟩
      rw [hcombine, eval_call_build hreserved (.map (rest.length + 2))
        (lookup_mapName (Nat.le_add_left ..) hle) rfl (.cons hname h)
        (by simp [hlength, Builtin.arity])]
      rfl
    · have hcombine : combine name (e :: e' :: rest) =
          (Expr.call "Json.Decode.succeed" [.var name]).through
            ((e :: e' :: rest).map fun argument => .call Toolkit.decodeAndMap [argument]) :=
        if_neg hle
      refine ⟨_, ?_, .pipeline⟩
      rw [hcombine]
      refine eval_through (eval_succeed hreserved hname) ?_
      rw [List.forall₂_map_left_iff]
      exact h.imp fun _ _ he => hands_decodeAndMap hreserved he

theorem exists_argumentDecoders (hreserved : schema.NonReserved) {types : List Ty}
    (hover : ∀ type ∈ types, type.Over schema) (hfields : ∀ type ∈ types, type.HasFields)
    (i : Nat) (names : Names) :
    ∃ slots : List (Ty × Val), types = slots.map Prod.fst ∧
      (∀ slot ∈ slots, DecoderOf schema slot.1 slot.2) ∧
      List.Forall₂ (fun e d => eval schema.toElm [] e = some d)
        (argumentDecoders i types names).1
        ((slots.zipIdx i).map fun place => decodeVariantArg place.2 place.1.2) := by
  induction types generalizing i names with
  | nil => exact ⟨[], rfl, by simp, by rw [argumentDecoders]; exact .nil⟩
  | cons type rest ih =>
    obtain ⟨hover, hover'⟩ := List.forall_mem_cons.1 hover
    obtain ⟨hfields, hfields'⟩ := List.forall_mem_cons.1 hfields
    obtain ⟨d, hd, htype⟩ := exists_decoderOf hreserved type names hover hfields
    obtain ⟨slots, rfl, hslots, hdecoders⟩ := ih hover' hfields' (i + 1) (decoder type names).2
    have hi : eval schema.toElm [] (.int i) = some (.int i) := by rw [eval]
    refine ⟨(type, d) :: slots, rfl, List.forall_mem_cons.2 ⟨htype, hslots⟩, ?_⟩
    rw [argumentDecoders, List.zipIdx_cons, List.map_cons]
    exact .cons (eval_call_build hreserved .decodeVariantArg rfl rfl (.cons hi (.cons hd .nil)) rfl)
      hdecoders

theorem exists_decodeCtor (hvalid : schema.ElmValid) {name : String} {ctors : List Ctor}
    (hmem : TypeDef.custom name ctors ∈ schema.defs) {ctor : Ctor} (hctor : ctor ∈ ctors)
    (hover : ∀ type ∈ ctor.arguments, type.Over schema)
    (hfields : ∀ type ∈ ctor.arguments, type.HasFields) (names : Names) :
    ∃ d, eval schema.toElm [] (decodeCtor ctor names).1 = some (decodeVariant ctor.name d) ∧
      ∃ slots, VariantOf schema ctor d slots := by
  have hname : ctor.name ∈ ctors.map Ctor.name := List.mem_map_of_mem hctor
  have hconstructor : eval schema.toElm [] (.var ctor.name) = some (.ctor ctor.name []) :=
    eval_constructor hvalid.distinctCtors hmem
      (hvalid.upperNames _ (List.mem_append_right _ (List.mem_flatMap.2 ⟨_, hmem, hname⟩)))
      (if_pos hname)
  obtain ⟨slots, htypes, hslots, harguments⟩ :=
    exists_argumentDecoders hvalid.nonReserved hover hfields 0 names
  obtain ⟨d, hd, hcombines⟩ := exists_combine hvalid.nonReserved hconstructor harguments
  have htag : eval schema.toElm [] (.string ctor.name) = some (.string ctor.name) := by rw [eval]
  refine ⟨d, ?_, slots, ⟨htypes, hslots, hcombines⟩⟩
  exact eval_call_build hvalid.nonReserved .decodeVariant rfl rfl (.cons htag (.cons hd .nil)) rfl

theorem decodeCtors_eq (ctors : List Ctor) (names : Names) : (decodeCtors ctors names).1 =
    .call Toolkit.decodeCustomType [.list (ctors.mapM decodeCtor names).1] := rfl

/-- The decoder of a custom type chooses between the decoders of its constructors. -/
theorem exists_decodeCtors (hvalid : schema.ElmValid) {name : String} {ctors : List Ctor}
    (hmem : TypeDef.custom name ctors ∈ schema.defs)
    (hover : ∀ ctor ∈ ctors, ∀ type ∈ ctor.arguments, type.Over schema)
    (hfields : ∀ ctor ∈ ctors, ∀ type ∈ ctor.arguments, type.HasFields) (names : Names) :
    ∃ entries : List (Ctor × Val), ctors = entries.map Prod.fst ∧
      (∀ entry ∈ entries, ∃ slots, VariantOf schema entry.1 entry.2 slots) ∧
      eval schema.toElm [] (decodeCtors ctors names).1 =
        some (decodeCustomType (entries.map fun entry =>
          decodeVariant entry.1.name entry.2)) := by
  have hvariants : List.Forall₂ (fun ctor e => ∃ d,
      eval schema.toElm [] e = some (decodeVariant ctor.name d) ∧
        ∃ slots, VariantOf schema ctor d slots) ctors (ctors.mapM decodeCtor names).1 :=
    forall₂_mapM_state (fun ctor hctor names =>
      exists_decodeCtor hvalid hmem hctor (hover ctor hctor) (hfields ctor hctor) names) names
  obtain ⟨pairs, rfl, hexprs, hpairs⟩ := exists_pairs_of_forall₂ hvariants
  obtain ⟨triples, rfl, htriples⟩ := exists_pairs_of_forall_exists hpairs
  refine ⟨triples.map fun triple => (triple.1.1, triple.2), ?_, ?_, ?_⟩
  · rw [List.map_map, List.map_map]
    rfl
  · intro entry hentry
    obtain ⟨triple, htriple, rfl⟩ := List.mem_map.1 hentry
    exact (htriples triple htriple).2
  · have hvalues : (triples.map fun triple => triple.1.2).mapM (eval schema.toElm []) =
        some (triples.map fun triple => decodeVariant triple.1.1.name triple.2) :=
      mapM_map_eq_some fun triple htriple => (htriples triple htriple).1
    rw [decodeCtors_eq, hexprs, List.map_map, List.map_map]
    exact eval_call_build hvalid.nonReserved .decodeCustomType rfl rfl
      (.cons (eval_list hvalues) .nil) rfl

/-! ## On every message -/

theorem yields_decoderName {name : String} {d : TypeDef} (hget : schema.get? name = some d)
    {v : Val} (hv : eval schema.toElm [] (decoderBody d) = some v) {json : Json}
    {outcome : Option Val} (h : Yields schema.toElm v json outcome) :
    Yields schema.toElm (.global (decoderName name)) json outcome := by
  obtain ⟨result, hresult, houtcome⟩ := h
  exact ⟨result, by rw [run_decoderName hget hv, hresult], houtcome⟩

/-- A reference, in turn for every number of aliases to follow. -/
theorem yields_of_resolves (hvalid : schema.ElmValid) (hfields : schema.HasFields) {json : Json}
    (hparts : ∀ part ∈ json.parts, Agrees schema part) {type : Ty} {hops : Nat}
    {shape : Wire.Shape} (h : schema.Resolves type hops shape) :
    ∀ {d : Val}, DecoderOf schema type d →
      Yields schema.toElm d json ((Wire.decode? schema type json).map Val.ofValue) := by
  induction h with
  | here hview =>
    intro d hd
    refine hd.yields hparts ?_
    rintro name rfl
    cases hview
  | custom hget =>
    intro d hd
    cases hd with
    | named _ hthunk =>
      obtain ⟨entries, rfl, hentries, heval⟩ :=
        exists_decodeCtors hvalid (Schema.mem_defs_of_get? hget)
          (fun ctor hctor type htype => hvalid.closed.argument hget hctor htype)
          (fun ctor hctor type htype fields hmem =>
            hfields fields (Schema.records_subset_of_custom hget hctor htype hmem)) Names.none
      exact (yields_lazy_iff hthunk).2 (yields_decoderName hget heval
        (yields_tagged hparts (Schema.shape_of_custom hget) hentries))
  | hop hget rest ih =>
    intro d hd
    cases hd with
    | named _ hthunk =>
      obtain ⟨d, heval, hd⟩ := exists_decodeAlias hvalid (Schema.mem_defs_of_get? hget)
        (hvalid.closed.alias hget)
        (fun fields hmem => hfields fields (Schema.records_subset_of_alias hget hmem)) Names.none
      rw [Wire.decode?_hop hget ⟨_, Schema.shape_eq_ok_iff.2 ⟨_, rest⟩⟩]
      exact (yields_lazy_iff hthunk).2 (yields_decoderName hget heval (ih hd))

/-- **On every message, the decoder of a type accepts what the reference decoder accepts.** -/
theorem agrees (hvalid : schema.ElmValid) (hfields : schema.HasFields) (json : Json) :
    Agrees schema json := by
  induction json using Json.induction_parts with
  | h json hparts =>
    intro type d hd
    by_cases hnamed : ∃ name, type = .named name
    · obtain ⟨name, rfl⟩ := hnamed
      have hover : (Ty.named name).Over schema := by
        cases hd with
        | named hname _ => exact fun other hmem => List.mem_singleton.1 hmem ▸ hname
      obtain ⟨shape, hshape⟩ := Schema.exists_shape hvalid.aliasesEnd hvalid.closed hover
      obtain ⟨hops, hresolves⟩ := Schema.shape_eq_ok_iff.1 hshape
      exact yields_of_resolves hvalid hfields hparts hresolves hd
    · exact hd.yields hparts fun name hname => hnamed ⟨name, hname⟩

/-! ## The generated decoders -/

/-- If a decoder yields what the reference decoder accepts, running it has the same answers. -/
theorem run_iff_of_yields {e : Expr} {d : Val} (he : eval schema.toElm [] e = some d) {json : Json}
    {expected : Except Wire.Error Value}
    (h : Yields schema.toElm d json (expected.toOption.map Val.ofValue)) :
    (∀ value, runExpr schema.toElm e json = some (.ok (Val.ofValue value)) ↔
      expected = .ok value) ∧
    ((∃ problem, runExpr schema.toElm e json = some (.error problem)) ↔
      ∃ error, expected = .error error) := by
  obtain ⟨result, hrun, hresult⟩ := h
  have hexpr : runExpr schema.toElm e json = some result := by
    rw [runExpr, he]
    exact hrun
  rw [hexpr]
  cases expected with
  | error error =>
    cases result with
    | ok v => cases hresult
    | error problem => simp
  | ok value =>
    cases result with
    | error problem => cases hresult
    | ok v =>
      cases hresult
      simp [Val.ofValue_injective.eq_iff, eq_comm]

end

/-- **The generated decoders accept what the reference decoder accepts.**  Of an Elm-valid schema
without empty records, in the module that is generated for it:

* running the decoder of a type on JSON gives a value exactly if the JSON is decoded as that value,
  and is refused exactly if the JSON is not decoded;
* and so it is with the decoder of every definition. -/
theorem run_decoder_iff_decode (schema : Schema) (hvalid : schema.ElmValid)
    (hfields : schema.HasFields) :
    (∀ (type : Ty) (json : Json) (names : Names), type.Over schema → type.HasFields →
      (∀ value, runExpr schema.toElm (decoder type names).1 json =
          some (.ok (Val.ofValue value)) ↔ Wire.decode schema type json = .ok value) ∧
      ((∃ problem, runExpr schema.toElm (decoder type names).1 json = some (.error problem)) ↔
        ∃ error, Wire.decode schema type json = .error error)) ∧
    ∀ (name : String) (json : Json), schema.contains name →
      (∀ value, runExpr schema.toElm (.var (decoderName name)) json =
          some (.ok (Val.ofValue value)) ↔ Wire.decodeNamed schema name json = .ok value) ∧
      ((∃ problem, runExpr schema.toElm (.var (decoderName name)) json = some (.error problem)) ↔
        ∃ error, Wire.decodeNamed schema name json = .error error) := by
  refine ⟨fun type json names hover hrecords => ?_, fun name json hname => ?_⟩
  · obtain ⟨d, heval, hd⟩ := exists_decoderOf hvalid.nonReserved type names hover hrecords
    exact run_iff_of_yields heval (agrees hvalid hfields json type d hd)
  · obtain ⟨d, -, hd⟩ := eval_decoder_named hvalid.nonReserved hname Names.none
    have hyields := agrees hvalid hfields json _ d hd
    -- The decoder of the definition is what the decoder of a reference to it leads to.
    cases hd with
    | named _ hthunk =>
      exact run_iff_of_yields (eval_decoderName .nil hname) ((yields_lazy_iff hthunk).1 hyields)

/-- The definition of trees is one that Elm accepts. -/
theorem treeSchema_elmValid : treeSchema.ElmValid where
  distinctTypes := by decide
  nonReserved := by decide
  closed := by decide
  distinctFields := by decide
  distinctCtors := by decide
  upperNames := by decide
  aliasesEnd := by
    intro name hcycle
    obtain ⟨other, ⟨d, hget⟩, -⟩ := Relation.TransGen.head'_iff.1 hcycle
    cases List.mem_singleton.1 (Schema.mem_defs_of_get? hget)

/-- The decoder of trees accepts a tree of one node, and refuses a node without subtrees. -/
theorem run_decoder_tree :
    treeSchema.ElmValid ∧ treeSchema.HasFields ∧ treeSchema.contains "Tree" ∧
    runExpr treeSchema.toElm (.var (decoderName "Tree"))
      (.object [("_0", .object [("variant", .string "Leaf")]),
        ("_1", .object [("size", .number (.int 1))]),
        ("_2", .object [("variant", .string "Leaf")]), ("variant", .string "Node")]) =
      some (.ok (Val.ofValue (.variant "Node"
        [.variant "Leaf" [], .record [("size", .int 1)], .variant "Leaf" []]))) ∧
    ∃ problem, runExpr treeSchema.toElm (.var (decoderName "Tree"))
      (.object [("variant", .string "Node")]) = some (.error problem) := by
  have hfields : treeSchema.HasFields := by decide
  have hname : treeSchema.contains "Tree" := by decide
  have htree := fun json =>
    (run_decoder_iff_decode treeSchema treeSchema_elmValid hfields).2 "Tree" json hname
  exact ⟨treeSchema_elmValid, hfields, hname, ((htree _).1 _).2 rfl, (htree _).2.2 ⟨_, rfl⟩⟩

end Elm
end ElmWire
