import ElmWire.Proofs.Elm.Decoder
import ElmWire.Proofs.Elm.Encoder
import ElmWire.Proofs.Extraction.WellFormed

/-!
# The kind of JSON that a decoder accepts

What travels for a type is always JSON of one kind: an object, an array, a string, a number or a
boolean (`Shape.kind`).  The reference decoder checks for it.  A generated decoder has no such
check; it accepts nothing else because of the decoders that it is made of, each of which looks at
the JSON as one kind.

There is one exception.  A decoder of a record looks at an object because it looks at its fields, so
the decoder of a record **without** fields looks at nothing, and accepts everything
(`run_decoder_emptyRecord`).  All others are strict (`decoder_strict_iff`).

Nothing has to be known here about the parts of a decoder, so the proofs read off an evaluation
that has succeeded what it was made of (`exists_call_of_eval_call`,
`exists_builtin_of_eval_call`).
-/

set_option autoImplicit false
namespace ElmWire

/-! ## What the reference decoder checks -/

/-- The kind of JSON that travels for a shape, in the words of `Json.kind`. -/
def Wire.Shape.kind : Wire.Shape → String
  | .bool => "a boolean"
  | .int | .float => "a number"
  | .char | .string => "a string"
  | .list _ | .tuple _ => "an array"
  | .unit | .record _ | .tagged _ _ => "an object"

theorem Wire.kind_of_decodeShape {schema : Schema} {shape : Shape} {json : Json} {value : Value}
    (h : decodeShape schema shape json = .ok value) : json.kind = shape.kind := by
  cases shape with
  | unit =>
    rw [decodeShape] at h
    obtain ⟨members, hmembers, -⟩ := bind_eq_ok_iff.1 h
    cases json with
    | object _ => rfl
    | _ => cases hmembers
  | bool =>
    cases json with
    | bool b => rfl
    | _ => cases h
  | int | float =>
    cases json with
    | number n => rfl
    | _ => cases h
  | char | string =>
    cases json with
    | string s => rfl
    | _ => cases h
  | list _ | tuple _ =>
    cases json with
    | array items => rfl
    | _ => cases h
  | record _ | tagged _ _ =>
    cases json with
    | object members => rfl
    | _ => cases h

/-- The reference decoder accepts JSON of one kind only. -/
theorem Wire.kind_of_decode {schema : Schema} {type : Ty} {shape : Shape}
    (hshape : schema.shape type = .ok shape) {json : Json} {value : Value}
    (h : decode schema type json = .ok value) : json.kind = shape.kind := by
  rw [decode_of_shape json hshape] at h
  exact kind_of_decodeShape h

namespace Elm

/-! ## Strict decoders -/

/-- The decoder accepts JSON of one kind only. -/
def Strict (decls : List Decl) (d : Val) (kind : String) : Prop :=
  ∀ json v, run decls d json = some (.ok v) → json.kind = kind

section

variable {decls : List Decl} {kind : String}

theorem Yields.not_ok {d : Val} {json : Json} (h : Yields decls d json none) (v : Val) :
    run decls d json ≠ some (.ok v) := by
  obtain ⟨result, hresult, houtcome⟩ := h
  rw [hresult]
  rintro ⟨⟩
  cases houtcome

/-- The kind of JSON that a decoder looks at, if it looks at any itself. -/
def Decoder.looksAt? : Decoder → Option String
  | .bool => some "a boolean"
  | .int | .float => some "a number"
  | .string => some "a string"
  | .list _ | .index _ _ => some "an array"
  | .field _ _ => some "an object"
  | _ => none

/-- A decoder refuses what it does not look at. -/
theorem strict_of_looksAt? {d : Decoder} (hd : d.looksAt? = some kind) :
    Strict decls (.decoder d) kind := by
  intro json v h
  cases d with
  | bool =>
    cases hd
    cases json with
    | bool b => rfl
    | _ => exact absurd h ((yields_bool _).not_ok v)
  | int =>
    cases hd
    cases json with
    | number n => rfl
    | _ => exact absurd h ((yields_int _).not_ok v)
  | float =>
    cases hd
    cases json with
    | number n => rfl
    | _ => exact absurd h ((yields_float _).not_ok v)
  | string =>
    cases hd
    cases json with
    | string s => rfl
    | _ => exact absurd h ((yields_string _).not_ok v)
  | list item =>
    cases hd
    cases json with
    | array items => rfl
    | _ => exact absurd h ((yields_list_of_ne (by simp)).not_ok v)
  | index i d =>
    cases hd
    cases json with
    | array items => rfl
    | _ => exact absurd h ((yields_index_of_ne (by simp)).not_ok v)
  | field name d =>
    cases hd
    cases json with
    | object members => rfl
    | _ => exact absurd h ((yields_field_of_ne (by simp)).not_ok v)
  | _ => cases hd

/-- Combined decoders all have to accept, so one that is strict is enough. -/
theorem Strict.map {d : Val} (h : Strict decls d kind) (function : Val) {decoders : List Val}
    (hmem : d ∈ decoders) : Strict decls (.decoder (.map function decoders)) kind := by
  intro json v hrun
  rw [run] at hrun
  obtain ⟨results, hresults, hrun⟩ := Option.bind_eq_some_iff.1 hrun
  obtain ⟨result, hmem, hresult⟩ := exists_of_mapM_eq_some hresults d hmem
  cases hall : results.mapM id with
  | error problem =>
    rw [hall] at hrun
    cases hrun
  | ok vs =>
    obtain ⟨w, rfl⟩ := exists_forall₂_iff.1 ⟨vs, mapM_eq_ok_iff.1 hall⟩ result hmem
    exact h json w hresult

theorem Strict.andThen {d : Val} (h : Strict decls d kind) (function : Val) :
    Strict decls (.decoder (.andThen function d)) kind := by
  intro json v hrun
  rw [run] at hrun
  obtain ⟨result, hresult, hrun⟩ := Option.bind_eq_some_iff.1 hrun
  cases result with
  | ok w => exact h json w hresult
  | error problem => cases hrun

theorem Strict.lazy {thunk d : Val} (h : Strict decls d kind)
    (hthunk : apply decls thunk .unit = some d) : Strict decls (.decoder (.lazy thunk)) kind := by
  intro json v hrun
  rw [run, hthunk] at hrun
  exact h json v hrun

theorem strict_decodeCustomType (variants : List Val) :
    Strict decls (decodeCustomType variants) "an object" := (strict_of_looksAt? rfl).andThen _

/-- The kind of JSON that the decoders accept which a function of the libraries or the toolkit
makes, if it makes any that are strict. -/
def Builtin.decodes? : Builtin → Option String
  | .list | .decodeTuple2 | .decodeTuple3 => some "an array"
  | .decodeMaybe | .decodeResult | .decodeCustomType | .decodeRecordField => some "an object"
  | _ => none

theorem strict_of_build {f : Builtin} (hf : f.decodes? = some kind) {vs : List Val} {d : Val}
    (h : build f vs = some d) : Strict decls d kind := by
  revert h
  fun_cases build f vs with
  | case10 => -- `list`
    cases hf
    rintro ⟨⟩
    exact strict_of_looksAt? rfl
  | case14 | case15 | case18 => -- `decodeTuple2`, `decodeTuple3` and `decodeRecordField`
    cases hf
    rintro ⟨⟩
    exact Strict.map (strict_of_looksAt? rfl) _ (List.mem_cons_self ..)
  | case16 | case17 | case21 => -- `decodeMaybe`, `decodeResult` and `decodeCustomType`
    cases hf
    rintro ⟨⟩
    exact strict_decodeCustomType _
  | case27 => rintro ⟨⟩
  | _ => cases hf

/-! ## What encoders emit -/

/-- The function emits JSON of one kind only. -/
def Emits (decls : List Decl) (f : Val) (kind : String) : Prop :=
  ∀ v json, apply decls f v = some (.json json) → json.kind = kind

/-- The kind of JSON that a function of the libraries or the toolkit emits, if it emits any. -/
def Builtin.encodes? : Builtin → Option String
  | .jsonBool => some "a boolean"
  | .jsonInt | .jsonFloat => some "a number"
  | .jsonString | .encodeChar => some "a string"
  | .jsonList | .encodeTuple2 | .encodeTuple3 => some "an array"
  | .jsonObject | .encodeUnit | .encodeMaybe | .encodeResult | .encodeRecord | .encodeVariant =>
    some "an object"
  | _ => none

theorem kind_of_build {f : Builtin} (hf : f.encodes? = some kind) {vs : List Val} {json : Json}
    (h : build f vs = some (.json json)) : json.kind = kind := by
  revert h
  fun_cases build f vs with
  | case1 | case2 | case3 | case4 | case7 | case8 =>
    cases hf
    rintro ⟨⟩
    rfl
  | case5 | case6 | case9 => -- `jsonObject`, `encodeRecord` and `encodeVariant`
    intro h
    obtain ⟨parts, -, h⟩ := Option.bind_eq_some_iff.1 h
    cases hf
    cases h
    rfl
  | case27 => rintro ⟨⟩
  | _ => cases hf

theorem kind_of_call {f : Builtin} (hf : f.encodes? = some kind) {vs : List Val} {json : Json}
    (h : call decls f vs = some (.json json)) : json.kind = kind := by
  rw [Builtin.call.eq_def] at h
  split at h
  case h_1 => -- `jsonList`
    obtain ⟨encoded, -, h⟩ := Option.bind_eq_some_iff.1 h
    obtain ⟨items, -, h⟩ := Option.bind_eq_some_iff.1 h
    cases hf
    cases h
    rfl
  case h_2 => -- `encodeTuple2`
    obtain ⟨a, -, h⟩ := Option.bind_eq_some_iff.1 h
    obtain ⟨b, -, h⟩ := Option.bind_eq_some_iff.1 h
    obtain ⟨items, -, h⟩ := Option.bind_eq_some_iff.1 h
    cases hf
    cases h
    rfl
  case h_3 => -- `encodeTuple3`
    obtain ⟨a, -, h⟩ := Option.bind_eq_some_iff.1 h
    obtain ⟨b, -, h⟩ := Option.bind_eq_some_iff.1 h
    obtain ⟨c, -, h⟩ := Option.bind_eq_some_iff.1 h
    obtain ⟨items, -, h⟩ := Option.bind_eq_some_iff.1 h
    cases hf
    cases h
    rfl
  case h_4 | h_6 | h_7 => -- `encodeMaybe` and `encodeResult`
    obtain ⟨encoded, -, h⟩ := Option.bind_eq_some_iff.1 h
    obtain ⟨argument, -, h⟩ := Option.bind_eq_some_iff.1 h
    cases hf
    cases h
    rfl
  case h_5 =>
    cases hf
    cases h
    rfl
  case h_8 => cases hf
  case h_9 => exact kind_of_build hf h

/-- With all arguments but one, such a function emits JSON of that kind. -/
theorem emits_builtin {f : Builtin} (hf : f.encodes? = some kind) {vs : List Val}
    (hlength : vs.length + 1 = f.arity) : Emits decls (.builtin f vs) kind := by
  intro v json h
  rw [apply_builtin_last v hlength] at h
  exact kind_of_call hf h

end

/-! ## What an evaluation was made of -/

section

variable {schema : Schema} {env : List (String × Val)}

theorem exists_of_eval_call (hreserved : schema.NonReserved) (henv : Locals env) {name : String}
    {f : Builtin} (hname : builtins.lookup name = some (.builtin f [])) {arguments : List Expr}
    (hne : arguments ≠ []) {w : Val}
    (h : eval schema.toElm env (.call name arguments) = some w) :
    ∃ vs : List Val, vs.length = arguments.length ∧
      vs.foldlM (apply schema.toElm) (.builtin f []) = some w := by
  have hcall : Expr.call name arguments = .app (.var name) arguments := by
    cases arguments with
    | nil => exact absurd rfl hne
    | cons first rest => rfl
  rw [hcall, eval, eval_builtin hreserved henv hname, Option.bind_eq_bind, Option.bind_some] at h
  obtain ⟨vs, hvs, h⟩ := Option.bind_eq_some_iff.1 h
  exact ⟨vs, length_of_mapM_eq_some hvs, h⟩

/-- A function that has got all of its arguments was called. -/
theorem exists_call_of_eval_call (hreserved : schema.NonReserved) (henv : Locals env)
    (name : String) (f : Builtin) (arguments : List Expr)
    (hname : builtins.lookup name = some (.builtin f [])) (hlength : arguments.length = f.arity)
    {w : Val} (h : eval schema.toElm env (.call name arguments) = some w) :
    ∃ vs, call schema.toElm f vs = some w := by
  have hne : arguments ≠ [] := by
    rintro rfl
    exact absurd hlength (Nat.ne_of_lt f.arity_pos)
  obtain ⟨vs, hvs, hw⟩ := exists_of_eval_call hreserved henv hname hne h
  rw [foldlM_apply_builtin (hvs.trans hlength)] at hw
  exact ⟨vs, hw⟩

/-- A function that has not got all of its arguments waits for the rest. -/
theorem exists_builtin_of_eval_call (hreserved : schema.NonReserved) (henv : Locals env)
    (name : String) (f : Builtin) (arguments : List Expr)
    (hname : builtins.lookup name = some (.builtin f [])) (hne : arguments ≠ [])
    (hlength : arguments.length < f.arity) {w : Val}
    (h : eval schema.toElm env (.call name arguments) = some w) :
    ∃ vs : List Val, vs.length = arguments.length ∧ w = .builtin f vs := by
  obtain ⟨vs, hvs, hw⟩ := exists_of_eval_call hreserved henv hname hne h
  rw [foldlM_apply_builtin_of_lt (by simpa [hvs] using hlength)] at hw
  cases hw
  exact ⟨vs, hvs, rfl⟩

/-! ## Generated decoders are strict -/

theorem isHigherOrder_of_decodes? {f : Builtin} {kind : String} (hf : f.decodes? = some kind) :
    f.isHigherOrder = false := by
  cases f with
  | jsonList | encodeTuple2 | encodeTuple3 | encodeMaybe | encodeResult | forward => cases hf
  | _ => rfl

theorem strict_of_eval_var (hreserved : schema.NonReserved) {name : String} {v : Val}
    (hname : builtins.lookup name = some v) {kind : String} (hv : Strict schema.toElm v kind)
    {d : Val} (h : eval schema.toElm [] (.var name) = some d) : Strict schema.toElm d kind := by
  cases (eval_builtin hreserved .nil hname).symm.trans h
  exact hv

theorem strict_of_eval_call (hreserved : schema.NonReserved) (name : String) (f : Builtin)
    (arguments : List Expr) (hname : builtins.lookup name = some (.builtin f []))
    (hlength : arguments.length = f.arity) {kind : String} (hf : f.decodes? = some kind) {d : Val}
    (h : eval schema.toElm [] (.call name arguments) = some d) : Strict schema.toElm d kind := by
  obtain ⟨vs, hcall⟩ := exists_call_of_eval_call hreserved .nil name f arguments hname hlength h
  rw [call_eq_build (isHigherOrder_of_decodes? hf)] at hcall
  exact strict_of_build hf hcall

theorem exists_of_mem_fieldDecoders {fields : List (String × Ty)} {names : Names} {stage : Expr}
    (h : stage ∈ (fieldDecoders fields names).1) :
    ∃ name e, stage = .call Toolkit.decodeRecordField [.string name, e] := by
  induction fields generalizing names with
  | nil =>
    rw [fieldDecoders] at h
    cases h
  | cons field rest ih =>
    rw [fieldDecoders] at h
    rcases List.mem_cons.1 h with rfl | h
    · exact ⟨_, _, rfl⟩
    · exact ih h

theorem fieldDecoders_ne_nil {fields : List (String × Ty)} (hne : fields ≠ []) (names : Names) :
    (fieldDecoders fields names).1 ≠ [] := by
  cases fields with
  | nil => exact absurd rfl hne
  | cons field rest =>
    rw [fieldDecoders]
    exact List.cons_ne_nil _ _

/-- A decoder that is sent through the steps of some fields looks at the last of them. -/
theorem strict_of_eval_through (hreserved : schema.NonReserved) {head : Expr}
    {fields : List (String × Ty)} (hne : fields ≠ []) {names : Names} {d : Val}
    (h : eval schema.toElm [] (head.through (fieldDecoders fields names).1) = some d) :
    Strict schema.toElm d "an object" := by
  obtain hnil | ⟨earlier, last, hstages⟩ := List.eq_nil_or_concat (fieldDecoders fields names).1
  · exact absurd hnil (fieldDecoders_ne_nil hne names)
  · obtain ⟨name, e, hlast⟩ : ∃ name e, last = .call Toolkit.decodeRecordField [.string name, e] :=
      exists_of_mem_fieldDecoders (by rw [hstages]; simp)
    have hthrough : head.through (fieldDecoders fields names).1 =
        .pipe head (earlier ++ [last]) := by
      rw [hstages, List.concat_eq_append, Expr.through]
      simp
    -- Each step looks at an object by itself, so nothing has to be known about what it is handed.
    rw [hthrough, eval] at h
    obtain ⟨first, -, h⟩ := Option.bind_eq_some_iff.1 h
    rw [List.foldlM_append] at h
    obtain ⟨function, -, h⟩ := Option.bind_eq_some_iff.1 h
    obtain ⟨result, hresult, h⟩ := Option.bind_eq_some_iff.1 h
    cases h
    obtain ⟨stage, hstage, happly⟩ := Option.bind_eq_some_iff.1 hresult
    rw [hlast] at hstage
    obtain ⟨vs, hvs, rfl⟩ := exists_builtin_of_eval_call hreserved .nil _ .decodeRecordField
      [_, _] rfl (by simp) (Nat.lt_succ_self _) hstage
    rw [apply_builtin_last function (congrArg (· + 1) hvs), call_eq_build rfl] at happly
    exact strict_of_build rfl happly

theorem contains_of_get? {name : String} {d : TypeDef} (hget : schema.get? name = some d) :
    schema.contains name := by
  rw [Schema.contains, hget]
  rfl

/-- The decoder of a reference is as strict as the body that it leads to. -/
theorem strict_named (hreserved : schema.NonReserved) {name : String} {definition : TypeDef}
    (hget : schema.get? name = some definition) {kind : String}
    (hbody : ∀ v, eval schema.toElm [] (decoderBody definition) = some v →
      Strict schema.toElm v kind) {names : Names} {d : Val}
    (h : eval schema.toElm [] (decoder (.named name) names).1 = some d) :
    Strict schema.toElm d kind := by
  obtain ⟨d', hd', hof⟩ := eval_decoder_named hreserved (contains_of_get? hget) names
  cases hd'.symm.trans h
  cases hof with
  | named _ hthunk =>
    refine Strict.lazy (fun json v hrun => ?_) hthunk
    rw [run, body?_decoderName hget, Option.bind_eq_bind, Option.bind_some] at hrun
    obtain ⟨w, hw, hrun⟩ := Option.bind_eq_some_iff.1 hrun
    exact hbody w hw json v hrun

theorem eq_of_resolves_of_view {type : Ty} {hops : Nat} {shape shape' : Wire.Shape}
    (h : schema.Resolves type hops shape) (hview : type.view = .shape shape') : shape = shape' :=
  (h.unique (.here hview)).2

/-- **A generated decoder is strict** unless it is for records without fields. -/
theorem strict_decoder (hreserved : schema.NonReserved) {type : Ty} {hops : Nat}
    {shape : Wire.Shape} (h : schema.Resolves type hops shape) (hne : shape ≠ .record []) :
    ∀ {names : Names} {d : Val}, eval schema.toElm [] (decoder type names).1 = some d →
      Strict schema.toElm d shape.kind := by
  induction h with
  | @here type shape hview =>
    intro names d hd
    cases type <;> rw [decoder] at hd
    case named => cases hview
    case record fields =>
      cases hview
      exact strict_of_eval_through hreserved (fun hnil => hne (by rw [hnil])) hd
    case unit =>
      cases hview
      exact strict_of_eval_var hreserved rfl (strict_decodeCustomType _) hd
    case bool | int | float | string =>
      cases hview
      exact strict_of_eval_var hreserved rfl (strict_of_looksAt? rfl) hd
    case char =>
      cases hview
      exact strict_of_eval_var hreserved rfl (Strict.andThen (strict_of_looksAt? rfl) _) hd
    case list =>
      cases hview
      exact strict_of_eval_call hreserved _ .list [_] rfl rfl rfl hd
    case pair =>
      cases hview
      exact strict_of_eval_call hreserved _ .decodeTuple2 [_, _] rfl rfl rfl hd
    case triple =>
      cases hview
      exact strict_of_eval_call hreserved _ .decodeTuple3 [_, _, _] rfl rfl rfl hd
    case maybe =>
      cases hview
      exact strict_of_eval_call hreserved _ .decodeMaybe [_] rfl rfl rfl hd
    case result =>
      cases hview
      exact strict_of_eval_call hreserved _ .decodeResult [_, _] rfl rfl rfl hd
  | @custom name other ctors hget =>
    intro names d hd
    refine strict_named hreserved hget (fun v hv => ?_) hd
    rw [decoderBody, decodeCtors_eq] at hv
    exact strict_of_eval_call hreserved _ .decodeCustomType [_] rfl rfl rfl hv
  | @hop name other type hops shape hget rest ih =>
    intro names d hd
    refine strict_named hreserved hget (fun v hv => ?_) hd
    -- The decoder of a record alias differs from that of its type, but not in its steps.
    cases type with
    | record fields =>
      cases eq_of_resolves_of_view rest rfl
      exact strict_of_eval_through hreserved (fun hnil => hne (by rw [hnil])) hv
    | _ => exact ih hne hv

/-! ## Records without fields -/

theorem decodeAlias_eq {type : Ty} (h : ∀ fields, type = .record fields → fields = [])
    (name : String) (names : Names) :
    (decodeAlias name type names).1 = (decoder type names).1 := by
  cases type with
  | record fields =>
    cases h fields rfl
    rw [decoder]
    rfl
  | _ => rfl

/-- **The decoder of a record without fields accepts everything.** -/
theorem run_decoder_emptyRecord (hreserved : schema.NonReserved) {type : Ty} {hops : Nat}
    {shape : Wire.Shape} (h : schema.Resolves type hops shape) (hshape : shape = .record []) :
    ∀ (names : Names) (json : Json),
      runExpr schema.toElm (decoder type names).1 json = some (.ok (.record [])) := by
  induction h with
  | @here type shape hview =>
    intro names json
    subst hshape
    cases type <;> cases hview
    have hempty : eval schema.toElm [] (.record []) = some (.record []) := eval_record rfl
    rw [decoder, runExpr]
    show (eval schema.toElm [] (.call "Json.Decode.succeed" [.record []])).bind _ = _
    rw [eval_succeed hreserved hempty, Option.bind_some, run]
  | custom hget => cases hshape
  | @hop name other type hops shape hget rest ih =>
    intro names json
    have hfields : ∀ fields, type = .record fields → fields = [] := by
      rintro fields rfl
      cases (eq_of_resolves_of_view rest rfl).symm.trans hshape
      rfl
    obtain ⟨v, hv, hrun⟩ := Option.bind_eq_some_iff.1 (ih hshape Names.none json)
    rw [← decodeAlias_eq hfields other] at hv
    obtain ⟨d, hd, hof⟩ := eval_decoder_named hreserved (contains_of_get? hget) names
    cases hof with
    | named _ hthunk =>
      rw [runExpr, hd, Option.bind_eq_bind, Option.bind_some, run, hthunk]
      exact (run_decoderName hget hv json).trans hrun

/-! ## Generated encoders emit what is sent -/

theorem emits_of_eval_var (hreserved : schema.NonReserved) {name : String} {f : Builtin}
    (hname : builtins.lookup name = some (.builtin f [])) (harity : f.arity = 1) {kind : String}
    (hf : f.encodes? = some kind) {g : Val} (h : eval schema.toElm [] (.var name) = some g) :
    Emits schema.toElm g kind := by
  cases (eval_builtin hreserved .nil hname).symm.trans h
  exact emits_builtin hf harity.symm

theorem emits_of_eval_call (hreserved : schema.NonReserved) (name : String) (f : Builtin)
    (arguments : List Expr) (hname : builtins.lookup name = some (.builtin f []))
    (hne : arguments ≠ []) (hlength : arguments.length + 1 = f.arity) {kind : String}
    (hf : f.encodes? = some kind) {g : Val}
    (h : eval schema.toElm [] (.call name arguments) = some g) : Emits schema.toElm g kind := by
  obtain ⟨vs, hvs, rfl⟩ :=
    exists_builtin_of_eval_call hreserved .nil name f arguments hname hne (by omega) h
  exact emits_builtin hf (by omega)

/-- Spelled out, the encoder of a record calls a function of the toolkit. -/
theorem kind_of_encodeOf_record (hreserved : schema.NonReserved) (henv : Locals env)
    {subject : Expr} {fields : List (String × Ty)} {names : Names} {json : Json}
    (h : eval schema.toElm env (encodeOf subject (.record fields) names).1 = some (.json json)) :
    json.kind = "an object" := by
  rw [encodeOf] at h
  obtain ⟨vs, hcall⟩ := exists_call_of_eval_call hreserved henv _ .encodeRecord [_] rfl rfl h
  exact kind_of_call rfl hcall

theorem mem_of_bindAll_vars {xs : List String} {vs : List Val} {bound : List (String × Val)}
    (h : bindAll (xs.map .var) vs = some bound) : ∀ pair ∈ bound, pair.1 ∈ xs := by
  induction xs generalizing vs bound with
  | nil =>
    cases vs with
    | nil =>
      cases h
      simp
    | cons v vs => cases h
  | cons x xs ih =>
    cases vs with
    | nil => cases h
    | cons v vs =>
      rw [List.map_cons, bindAll] at h
      obtain ⟨first, hfirst, h⟩ := Option.bind_eq_some_iff.1 h
      obtain ⟨rest, hrest, h⟩ := Option.bind_eq_some_iff.1 h
      cases hfirst
      cases h
      refine List.forall_mem_cons.2 ⟨List.mem_cons_self .., fun pair hpair => ?_⟩
      exact List.mem_cons_of_mem _ (ih hrest pair hpair)

/-- The variables that the pattern for a constructor binds are local ones. -/
theorem locals_of_bind {ctor : Ctor} {names : Names} {v : Val} {bound : List (String × Val)}
    (h : (encodeCtor ctor names).1.1.bind v = some bound) : Locals bound := by
  rw [encodeCtor_eq] at h
  cases v with
  | ctor other arguments =>
    rw [Pattern.bind] at h
    split at h
    · exact fun pair hpair => isLocal_argumentVars _ (mem_of_bindAll_vars h pair hpair)
    · cases h
  | _ => cases h

/-- The encoder of a custom type takes the branch of some constructor. -/
theorem emits_encodeCtors (hreserved : schema.NonReserved) {ctors : List Ctor} {names : Names}
    {f : Val} (h : eval schema.toElm [] (encodeCtors ctors names).1 = some f) :
    Emits schema.toElm f "an object" := by
  intro v json happly
  rw [encodeCtors_eq, eval] at h
  cases h
  rw [apply_lambda, eval, eval_var_local List.lookup_cons_self, Option.bind_eq_bind,
    Option.bind_some] at happly
  obtain ⟨⟨bound, body⟩, hbranch, hbody⟩ := Option.bind_eq_some_iff.1 happly
  obtain ⟨branch, hmem, hbind⟩ := List.exists_of_findSome?_eq_some hbranch
  obtain ⟨bound', hbound, heq⟩ := Option.map_eq_some_iff.1 hbind
  cases heq
  have hbranches : List.Forall₂ (fun ctor branch => ∃ names, branch = (encodeCtor ctor names).1)
      ctors ((ctors.mapM encodeCtor) (freshValue names).2).1 :=
    forall₂_mapM_state (fun ctor _ names => ⟨names, rfl⟩) _
  obtain ⟨ctor, names', rfl⟩ := exists_forall₂_iff.1 ⟨ctors, hbranches.flip⟩ branch hmem
  -- No variable of the pattern hides the function that the branch calls.
  have hlocals : Locals (bound ++ [((freshValue names).1, v)]) :=
    (locals_of_bind hbound).append (Locals.nil.cons (isLocal_freshValue names) v)
  have hvariant : eval schema.toElm (bound ++ [((freshValue names).1, v)])
      (encodeCtor ctor names').1.2 = some (.json json) := hbody
  rw [encodeCtor_eq] at hvariant
  obtain ⟨vs, hcall⟩ :=
    exists_call_of_eval_call hreserved hlocals _ .encodeVariant [_, _] rfl rfl hvariant
  exact kind_of_call rfl hcall

/-- The encoder of a reference emits what the body emits that it leads to. -/
theorem emits_named {name : String} {definition : TypeDef}
    (hget : schema.get? name = some definition) {kind : String}
    (hbody : ∀ f, eval schema.toElm [] (encoderBody definition) = some f →
      Emits schema.toElm f kind) {names : Names} {f : Val}
    (h : eval schema.toElm [] (encoder (.named name) names).1 = some f) :
    Emits schema.toElm f kind := by
  rw [encoder] at h
  cases (eval_encoderName .nil (contains_of_get? hget)).symm.trans h
  intro v json happly
  rw [apply, body?_encoderName hget, Option.bind_eq_bind, Option.bind_some] at happly
  obtain ⟨g, hg, happly⟩ := Option.bind_eq_some_iff.1 happly
  exact hbody g hg v json happly

/-- **A generated encoder emits JSON of the kind that travels for its type**, whatever it is applied
to. -/
theorem emits_encoder (hreserved : schema.NonReserved) {type : Ty} {hops : Nat}
    {shape : Wire.Shape} (h : schema.Resolves type hops shape) :
    ∀ {names : Names} {f : Val}, eval schema.toElm [] (encoder type names).1 = some f →
      Emits schema.toElm f shape.kind := by
  induction h with
  | @here type shape hview =>
    intro names f hf
    cases type
    case named => cases hview
    case record fields =>
      cases hview
      rw [encoder_record, eval] at hf
      cases hf
      intro v json happly
      rw [apply_lambda] at happly
      exact kind_of_encodeOf_record hreserved (Locals.nil.cons (isLocal_freshValue names) v) happly
    all_goals rw [encoder] at hf
    case unit | bool | int | float | char | string =>
      cases hview
      exact emits_of_eval_var hreserved rfl rfl rfl hf
    case list =>
      cases hview
      exact emits_of_eval_call hreserved _ .jsonList [_] rfl (by simp) rfl rfl hf
    case pair =>
      cases hview
      exact emits_of_eval_call hreserved _ .encodeTuple2 [_, _] rfl (by simp) rfl rfl hf
    case triple =>
      cases hview
      exact emits_of_eval_call hreserved _ .encodeTuple3 [_, _, _] rfl (by simp) rfl rfl hf
    case maybe =>
      cases hview
      exact emits_of_eval_call hreserved _ .encodeMaybe [_] rfl (by simp) rfl rfl hf
    case result =>
      cases hview
      exact emits_of_eval_call hreserved _ .encodeResult [_, _] rfl (by simp) rfl rfl hf
  | custom hget =>
    exact fun hf => emits_named hget (fun _ hbody => emits_encodeCtors hreserved hbody) hf
  | hop hget _ ih => exact fun hf => emits_named hget (fun _ hbody => ih hbody) hf

end

/-! ## The kind of JSON -/

/-- **Generated decoders are strict about the kind of JSON, except for records without fields.**
What travels for a type has one kind: whatever its generated encoder emits has that kind, and the
reference decoder accepts nothing else.  The generated decoder accepts nothing else either, unless
the type comes down to a record without fields. -/
theorem decoder_strict_iff (schema : Schema) (hvalid : schema.ElmValid) (type : Ty)
    (hover : type.Over schema) :
    ∃ shape, schema.shape type = .ok shape ∧
      (∀ names v json, applyExpr schema.toElm (encoder type names).1 v = some (.json json) →
        json.kind = shape.kind) ∧
      (∀ json value, Wire.decode schema type json = .ok value → json.kind = shape.kind) ∧
      ∀ names, (∀ json v, runExpr schema.toElm (decoder type names).1 json = some (.ok v) →
        json.kind = shape.kind) ↔ shape ≠ .record [] := by
  obtain ⟨shape, hshape⟩ := Schema.exists_shape hvalid.aliasesEnd hvalid.closed hover
  obtain ⟨hops, hresolves⟩ := Schema.shape_eq_ok_iff.1 hshape
  refine ⟨shape, hshape, ?_, fun _ _ => Wire.kind_of_decode hshape, fun names => ⟨?_, ?_⟩⟩
  · intro names v json happly
    obtain ⟨f, hf, happly⟩ := Option.bind_eq_some_iff.1 happly
    exact emits_encoder hvalid.nonReserved hresolves hf v json happly
  · rintro hstrict rfl
    have hnull := hstrict .null (.record [])
      (run_decoder_emptyRecord hvalid.nonReserved hresolves rfl names .null)
    exact absurd hnull (by decide)
  · intro hne json v hrun
    obtain ⟨d, hd, hrun⟩ := Option.bind_eq_some_iff.1 hrun
    exact strict_decoder hvalid.nonReserved hresolves hne hd json v hrun

/-- The decoder of trees accepts objects only. -/
theorem decoder_strict_tree :
    treeSchema.ElmValid ∧ (Ty.named "Tree").Over treeSchema ∧
      ∀ json v, runExpr treeSchema.toElm (decoder (.named "Tree") Names.none).1 json =
        some (.ok v) → json.kind = "an object" := by
  have hover : (Ty.named "Tree").Over treeSchema := by decide
  obtain ⟨shape, hshape, -, -, hstrict⟩ :=
    decoder_strict_iff treeSchema treeSchema_elmValid (.named "Tree") hover
  cases hshape
  exact ⟨treeSchema_elmValid, hover, (hstrict Names.none).2 (by simp)⟩

/-- A module whose inbound message is a record without fields. -/
def beatModule : Source.Module where
  name := "Beat"
  kind := .normal
  exposing := .all
  imports := []
  declarations :=
    [.custom "OutboundMessage" [] [⟨"Ping", []⟩], .alias "InboundMessage" [] (.record [])]

/-- The schema of `beatModule`. -/
def beatSchema : Schema :=
  ⟨[.custom "OutboundMessage" [⟨"Ping", []⟩], .alias "InboundMessage" (.record [])]⟩

theorem beatSchema_elmValid : beatSchema.ElmValid where
  distinctTypes := by decide
  nonReserved := by decide
  closed := by decide
  distinctFields := by decide
  distinctCtors := by decide
  upperNames := by decide
  aliasesEnd := by
    intro name hcycle
    obtain ⟨other, ⟨d, hget⟩, -⟩ := Relation.TransGen.head'_iff.1 hcycle
    have hmem := Schema.mem_defs_of_get? hget
    simp [beatSchema] at hmem

/-- **The decoder of a record without fields accepts a number**, which is not what the encoder emits
and not what the reference decoder accepts. -/
theorem run_decoder_beat :
    beatModule.toSchema = .ok beatSchema ∧ beatSchema.ElmValid ∧
      (Ty.named "InboundMessage").Over beatSchema ∧
      runExpr beatSchema.toElm (decoder (.named "InboundMessage") Names.none).1
        (.number (.int 5)) = some (.ok (.record [])) ∧
      applyExpr beatSchema.toElm (encoder (.named "InboundMessage") Names.none).1 (.record []) =
        some (.json (.object [])) ∧
      Wire.decode beatSchema (.named "InboundMessage") (.number (.int 5)) =
        .error (.mismatch "an object" "a number") := by
  have hover : (Ty.named "InboundMessage").Over beatSchema := by decide
  obtain ⟨hops, hresolves⟩ := Schema.shape_eq_ok_iff.1
    (rfl : beatSchema.shape (.named "InboundMessage") = .ok (.record []))
  have hreserved := beatSchema_elmValid.nonReserved
  refine ⟨rfl, beatSchema_elmValid, hover, ?_, ?_, rfl⟩
  · exact run_decoder_emptyRecord hreserved hresolves rfl _ _
  · have hencodes := Wire.encode_eq_ok_iff.1
      (rfl : Wire.encode beatSchema (.named "InboundMessage") (.record []) = .ok (.object []))
    obtain ⟨f, hf⟩ := exists_eval_encoder hreserved .nil (.named "InboundMessage") Names.none hover
    rw [applyExpr, hf]
    exact (computes_of_encodes hreserved beatSchema_elmValid.closed hencodes hover).1
      Names.none [] f .nil hf

end Elm
end ElmWire
