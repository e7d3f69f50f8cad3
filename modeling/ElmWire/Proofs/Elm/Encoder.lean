import Mathlib.Data.List.Zip
import ElmWire.Proofs.Elm.Module
import ElmWire.Proofs.Wire.Format

/-!
# Generated encoders

The Elm encoders that are generated for a schema compute the wire format.

An encoder is an expression; evaluated, it is a function that waits for a value
(`exists_eval_encoder`).  What it returns is shown by induction on how the message is put together
(`Wire.Encodes`), for the two forms in which an encoder occurs: as a function (`encoder`), and
spelled out for a value at hand (`encodeOf`).
-/

set_option autoImplicit false
namespace ElmWire.Elm

open Wire (Encodes Slot)

/-! ## Encoders are functions

The encoder of a composite type is a function of the libraries or the toolkit that waits for a
value, with the encoders of the parts as its first arguments. -/

section

variable {schema : Schema} {env : List (String × Val)}

theorem eval_encoder_list (hreserved : schema.NonReserved) (henv : Locals env) {item : Ty}
    {names : Names} {f : Val} (hf : eval schema.toElm env (encoder item names).1 = some f) :
    eval schema.toElm env (encoder (.list item) names).1 = some (.builtin .jsonList [f]) := by
  rw [encoder]
  exact eval_call_partial hreserved henv rfl (mapM_eq_some_of_forall₂ (.cons hf .nil))
    (Nat.lt_succ_self _)

theorem eval_encoder_maybe (hreserved : schema.NonReserved) (henv : Locals env) {item : Ty}
    {names : Names} {f : Val} (hf : eval schema.toElm env (encoder item names).1 = some f) :
    eval schema.toElm env (encoder (.maybe item) names).1 = some (.builtin .encodeMaybe [f]) := by
  rw [encoder]
  exact eval_call_partial hreserved henv rfl (mapM_eq_some_of_forall₂ (.cons hf .nil))
    (Nat.lt_succ_self _)

theorem eval_encoder_result (hreserved : schema.NonReserved) (henv : Locals env) {error ok : Ty}
    {names : Names} {f g : Val} (hf : eval schema.toElm env (encoder error names).1 = some f)
    (hg : eval schema.toElm env (encoder ok (encoder error names).2).1 = some g) :
    eval schema.toElm env (encoder (.result error ok) names).1 =
      some (.builtin .encodeResult [f, g]) := by
  rw [encoder]
  exact eval_call_partial hreserved henv rfl
    (mapM_eq_some_of_forall₂ (.cons hf (.cons hg .nil))) (Nat.lt_succ_self _)

theorem eval_encoder_pair (hreserved : schema.NonReserved) (henv : Locals env) {first second : Ty}
    {names : Names} {f g : Val} (hf : eval schema.toElm env (encoder first names).1 = some f)
    (hg : eval schema.toElm env (encoder second (encoder first names).2).1 = some g) :
    eval schema.toElm env (encoder (.pair first second) names).1 =
      some (.builtin .encodeTuple2 [f, g]) := by
  rw [encoder]
  exact eval_call_partial hreserved henv rfl
    (mapM_eq_some_of_forall₂ (.cons hf (.cons hg .nil))) (Nat.lt_succ_self _)

theorem eval_encoder_triple (hreserved : schema.NonReserved) (henv : Locals env)
    {first second third : Ty} {names : Names} {f g h : Val}
    (hf : eval schema.toElm env (encoder first names).1 = some f)
    (hg : eval schema.toElm env (encoder second (encoder first names).2).1 = some g)
    (hh : eval schema.toElm env (encoder third (encoder second (encoder first names).2).2).1 =
      some h) :
    eval schema.toElm env (encoder (.triple first second third) names).1 =
      some (.builtin .encodeTuple3 [f, g, h]) := by
  rw [encoder]
  exact eval_call_partial hreserved henv rfl
    (mapM_eq_some_of_forall₂ (.cons hf (.cons hg (.cons hh .nil)))) (Nat.lt_succ_self _)

/-- An encoder is a value, whether or not it is ever applied. -/
theorem exists_eval_encoder (hreserved : schema.NonReserved) (henv : Locals env) :
    ∀ (type : Ty) (names : Names), type.Over schema →
      ∃ f, eval schema.toElm env (encoder type names).1 = some f
  | .unit, _, _ | .bool, _, _ | .int, _, _ | .float, _, _ | .char, _, _ | .string, _, _ => by
    rw [encoder]
    exact ⟨_, eval_builtin hreserved henv rfl⟩
  | .list item, names, hover => by
    obtain ⟨f, hf⟩ := exists_eval_encoder hreserved henv item names hover
    exact ⟨_, eval_encoder_list hreserved henv hf⟩
  | .maybe item, names, hover => by
    obtain ⟨f, hf⟩ := exists_eval_encoder hreserved henv item names hover
    exact ⟨_, eval_encoder_maybe hreserved henv hf⟩
  | .pair first second, names, hover => by
    obtain ⟨hfirst, hsecond⟩ := Ty.over_pair.1 hover
    obtain ⟨f, hf⟩ := exists_eval_encoder hreserved henv first names hfirst
    obtain ⟨g, hg⟩ := exists_eval_encoder hreserved henv second (encoder first names).2 hsecond
    exact ⟨_, eval_encoder_pair hreserved henv hf hg⟩
  | .triple first second third, names, hover => by
    obtain ⟨hfirst, hsecond, hthird⟩ := Ty.over_triple.1 hover
    obtain ⟨f, hf⟩ := exists_eval_encoder hreserved henv first names hfirst
    obtain ⟨g, hg⟩ := exists_eval_encoder hreserved henv second (encoder first names).2 hsecond
    obtain ⟨h, hh⟩ := exists_eval_encoder hreserved henv third
      (encoder second (encoder first names).2).2 hthird
    exact ⟨_, eval_encoder_triple hreserved henv hf hg hh⟩
  | .result error ok, names, hover => by
    obtain ⟨herror, hok⟩ := Ty.over_result.1 hover
    obtain ⟨f, hf⟩ := exists_eval_encoder hreserved henv error names herror
    obtain ⟨g, hg⟩ := exists_eval_encoder hreserved henv ok (encoder error names).2 hok
    exact ⟨_, eval_encoder_result hreserved henv hf hg⟩
  | .record fields, _, _ => by
    rw [encoder]
    exact ⟨_, by rw [Expr.eval.eq_def]; rfl⟩
  | .named name, _, hover => by
    rw [encoder]
    exact ⟨_, eval_encoderName henv (hover name (List.mem_singleton_self name))⟩

/-! ## What encoders return -/

/-- The encoder of the type takes the value to the JSON. -/
def Computes (schema : Schema) (type : Ty) (value : Value) (json : Json) : Prop :=
  ∀ (names : Names) (env : List (String × Val)) (f : Val), Locals env →
    eval schema.toElm env (encoder type names).1 = some f →
      apply schema.toElm f (Val.ofValue value) = some (.json json)

/-- Spelled out for an expression that denotes the value, the encoder gives the JSON. -/
def ComputesOf (schema : Schema) (type : Ty) (value : Value) (json : Json) : Prop :=
  ∀ (names : Names) (env : List (String × Val)) (subject : Expr), Locals env →
    eval schema.toElm env subject = some (Val.ofValue value) →
      eval schema.toElm env (encodeOf subject type names).1 = some (.json json)

/-- Only records are encoded in another way when a value is at hand. -/
theorem encodeOf_eq {type : Ty} (htype : ∀ fields, type ≠ .record fields) (subject : Expr)
    (names : Names) : (encodeOf subject type names).1 = (encoder type names).1.apply [subject] := by
  rw [encodeOf]
  · rfl
  · exact htype

theorem Computes.of (hreserved : schema.NonReserved) {type : Ty} {value : Value} {json : Json}
    (h : Computes schema type value json) (htype : ∀ fields, type ≠ .record fields)
    (hover : type.Over schema) : ComputesOf schema type value json := by
  intro names env subject henv hsubject
  obtain ⟨f, hf⟩ := exists_eval_encoder hreserved henv type names hover
  rw [encodeOf_eq htype, eval_apply hf (mapM_eq_some_of_forall₂ (.cons hsubject .nil)),
    List.foldlM_cons, h names env f henv hf]
  rfl

theorem Computes.both (hreserved : schema.NonReserved) {type : Ty} {value : Value} {json : Json}
    (h : Computes schema type value json) (htype : ∀ fields, type ≠ .record fields)
    (hover : type.Over schema) :
    Computes schema type value json ∧ ComputesOf schema type value json :=
  ⟨h, h.of hreserved htype hover⟩

/-! ## Records -/

/-- The fields of a record at hand, each with its name. -/
theorem eval_encodeFields {env : List (String × Val)} (henv : Locals env) {subject : Expr}
    {values : List (String × Value)}
    (hsubject : eval schema.toElm env subject = some (Val.ofValue (.record values)))
    {slots : List (String × Slot)}
    (hfound : ∀ slot ∈ slots, values.lookup slot.1 = some slot.2.value)
    (h : ∀ slot ∈ slots, ComputesOf schema slot.2.type slot.2.value slot.2.json) (names : Names) :
    List.Forall₂ (fun e v => eval schema.toElm env e = some v)
      (encodeFields subject (slots.map fun slot => (slot.1, slot.2.type)) names).1
      (slots.map fun slot => .tuple [.string slot.1, .json slot.2.json]) := by
  induction slots generalizing names with
  | nil =>
    rw [List.map_nil, encodeFields]
    exact .nil
  | cons slot rest ih =>
    rw [List.forall_mem_cons] at hfound h
    have hfield : eval schema.toElm env (.access subject slot.1) =
        some (Val.ofValue slot.2.value) := by
      rw [Val.ofValue, ofFields_eq] at hsubject
      rw [eval_access hsubject, Members.lookup_map, hfound.1]
      rfl
    have hname : eval schema.toElm env (.string slot.1) = some (.string slot.1) := by rw [eval]
    have hjson := h.1 names env _ henv hfield
    rw [List.map_cons, encodeFields]
    exact .cons (eval_tuple (mapM_eq_some_of_forall₂ (.cons hname (.cons hjson .nil))))
      (ih hfound.2 h.2 _)

theorem computesOf_record (hreserved : schema.NonReserved) {slots : List (String × Slot)}
    {values : List (String × Value)}
    (hfound : ∀ slot ∈ slots, values.lookup slot.1 = some slot.2.value)
    (h : ∀ slot ∈ slots, ComputesOf schema slot.2.type slot.2.value slot.2.json) :
    ComputesOf schema (.record (slots.map fun slot => (slot.1, slot.2.type))) (.record values)
      (.object (Members.ofList (slots.map fun slot => (slot.1, slot.2.json)))) := by
  intro names env subject henv hsubject
  have hpairs := eval_list (mapM_eq_some_of_forall₂
    (eval_encodeFields henv hsubject hfound h names))
  have hmembers : (slots.map fun slot => Val.tuple [.string slot.1, .json slot.2.json]).mapM
      Val.member? = some (slots.map fun slot => (slot.1, slot.2.json)) :=
    mapM_map_eq_some fun _ _ => rfl
  rw [encodeOf]
  refine (eval_call_full hreserved henv rfl
    (mapM_eq_some_of_forall₂ (.cons hpairs .nil)) rfl).trans ?_
  rw [call_eq_build rfl, build, hmembers]
  rfl

theorem encoder_record (fields : List (String × Ty)) (names : Names) :
    (encoder (.record fields) names).1 =
      .lambda [.var (freshValue names).1]
        (encodeOf (.var (freshValue names).1) (.record fields) (freshValue names).2).1 := by
  rw [encoder, encodeOf]
  rfl

theorem isLocal_freshValue (names : Names) : IsLocal (freshValue names).1 :=
  ⟨"value", by simp, names.values, rfl⟩

/-- The function for a record binds it to a variable first. -/
theorem ComputesOf.function {fields : List (String × Ty)} {value : Value} {json : Json}
    (h : ComputesOf schema (.record fields) value json) :
    Computes schema (.record fields) value json := by
  intro names env f henv hf
  rw [encoder_record, eval] at hf
  cases hf
  rw [apply_lambda]
  exact h _ _ _ (henv.cons (isLocal_freshValue names) _) (eval_var_local List.lookup_cons_self)

/-! ## Custom types -/

theorem bindAll_vars {xs : List String} {vs : List Val} (h : xs.length = vs.length) :
    bindAll (xs.map .var) vs = some (xs.zip vs) := by
  induction xs generalizing vs with
  | nil =>
    cases List.length_eq_zero_iff.1 h.symm
    rfl
  | cons x xs ih =>
    cases vs with
    | nil => simp at h
    | cons v vs =>
      rw [List.map_cons, bindAll, Pattern.bind, ih (by simpa using h)]
      rfl

/-- The variables that the pattern for a constructor binds. -/
def argumentVars (ctor : Ctor) (names : Names) : List String :=
  ((ctor.arguments.mapM fun _ => freshArgument) names).1

theorem argumentVars_eq (ctor : Ctor) (names : Names) :
    argumentVars ctor names =
      (List.range ctor.arguments.length).map fun i => "arg" ++ toString (names.arguments + i) :=
  mapM_fresh (fun _ => rfl) (fun _ => rfl) ctor.arguments names

theorem length_argumentVars (ctor : Ctor) (names : Names) :
    (argumentVars ctor names).length = ctor.arguments.length := by
  rw [argumentVars_eq, List.length_map, List.length_range]

theorem isLocal_argumentVars {ctor : Ctor} {names : Names} :
    ∀ x ∈ argumentVars ctor names, IsLocal x := by
  intro x hmem
  rw [argumentVars_eq] at hmem
  obtain ⟨i, -, rfl⟩ := List.mem_map.1 hmem
  exact ⟨"arg", by simp, _, rfl⟩

theorem nodup_argumentVars (ctor : Ctor) (names : Names) : (argumentVars ctor names).Nodup := by
  rw [argumentVars_eq]
  exact nodup_map_range "arg" names.arguments ctor.arguments.length

/-- The branch for a constructor: the pattern, and the variant with its arguments encoded. -/
theorem encodeCtor_eq (ctor : Ctor) (names : Names) :
    (encodeCtor ctor names).1 =
      (.ctor ctor.name ((argumentVars ctor names).map .var),
        .call Toolkit.encodeVariant [.string ctor.name, .list
          (((ctor.arguments.zip (argumentVars ctor names)).mapM fun (type, argument) =>
            encodeOf (.var argument) type)
            ((ctor.arguments.mapM fun _ => freshArgument) names).2).1]) := rfl

/-- What the variables of a constructor are bound to. -/
def boundArguments (ctor : Ctor) (names : Names) (slots : List Slot) : List (String × Val) :=
  (argumentVars ctor names).zip (slots.map fun slot => Val.ofValue slot.value)

theorem map_fst_boundArguments {ctor : Ctor} {slots : List Slot} (names : Names)
    (hlength : ctor.arguments.length = slots.length) :
    (boundArguments ctor names slots).map Prod.fst = argumentVars ctor names := by
  rw [boundArguments, List.map_fst_zip]
  rw [List.length_map, length_argumentVars, hlength]

theorem locals_boundArguments (ctor : Ctor) (names : Names) (slots : List Slot) :
    Locals (boundArguments ctor names slots) := fun _ hmem =>
  isLocal_argumentVars _ (List.of_mem_zip hmem).1

theorem lookup_boundArguments {ctor : Ctor} {names : Names} {slots : List Slot}
    (hlength : ctor.arguments.length = slots.length) {place : Slot × String}
    (hmem : place ∈ slots.zip (argumentVars ctor names)) :
    (boundArguments ctor names slots).lookup place.2 = some (Val.ofValue place.1.value) := by
  apply Members.lookup_eq_some_of_mem
  · rw [map_fst_boundArguments names hlength]
    exact nodup_argumentVars ctor names
  · rw [boundArguments, List.zip_map_right, ← List.zip_swap, List.map_map]
    exact List.mem_map.2 ⟨place, hmem, rfl⟩

/-- The branch for a constructor, with its variables bound to the arguments of a value. -/
theorem eval_encodeCtor (hreserved : schema.NonReserved) (henv : Locals env) {ctor : Ctor}
    {slots : List Slot} (htypes : ctor.arguments = slots.map Slot.type)
    (h : ∀ slot ∈ slots, ComputesOf schema slot.type slot.value slot.json) (names : Names) :
    eval schema.toElm (boundArguments ctor names slots ++ env) (encodeCtor ctor names).1.2 =
      some (.json (Wire.envelope ctor.name (slots.map Slot.json))) := by
  have hlength : ctor.arguments.length = slots.length := by rw [htypes, List.length_map]
  have hlocals := (locals_boundArguments ctor names slots).append henv
  have hvar : ∀ place ∈ slots.zip (argumentVars ctor names),
      eval schema.toElm (boundArguments ctor names slots ++ env) (.var place.2) =
        some (Val.ofValue place.1.value) := by
    intro place hmem
    apply eval_var_local
    rw [List.lookup_append, lookup_boundArguments hlength hmem]
    rfl
  have hencoded : ∀ state, List.Forall₂
      (fun place e => eval schema.toElm (boundArguments ctor names slots ++ env) e =
        some (.json place.1.json)) (slots.zip (argumentVars ctor names))
      (((slots.zip (argumentVars ctor names)).mapM fun place =>
        encodeOf (.var place.2) place.1.type) state).1 :=
    forall₂_mapM_state fun place hmem state =>
      h place.1 (List.of_mem_zip hmem).1 state _ (.var place.2) hlocals (hvar place hmem)
  have hjsons : (slots.zip (argumentVars ctor names)).map (fun place => Val.json place.1.json) =
      (slots.map Slot.json).map .json := by
    have hslots : (slots.zip (argumentVars ctor names)).map Prod.fst = slots :=
      List.map_fst_zip (by rw [length_argumentVars, hlength])
    conv_rhs => rw [← hslots, List.map_map, List.map_map]
    rfl
  rw [encodeCtor_eq]
  generalize ((ctor.arguments.mapM fun _ => freshArgument) names).2 = state
  rw [htypes, List.zip_map_left, List.mapM_map]
  have hitems := mapM_eq_some_of_forall₂
    (List.forall₂_map_right_iff.2 (hencoded state).flip)
  rw [hjsons] at hitems
  have hname : eval schema.toElm (boundArguments ctor names slots ++ env) (.string ctor.name) =
      some (.string ctor.name) := by rw [eval]
  refine (eval_call_full hreserved hlocals rfl
    (mapM_eq_some_of_forall₂ (.cons hname (.cons (eval_list hitems) .nil))) rfl).trans ?_
  rw [call_eq_build rfl, build, mapM_json?]
  rfl

theorem bind_encodeCtor {ctor : Ctor} {slots : List Slot}
    (htypes : ctor.arguments = slots.map Slot.type) (names : Names) :
    (encodeCtor ctor names).1.1.bind (Val.ofValue (.variant ctor.name (slots.map Slot.value))) =
      some (boundArguments ctor names slots) := by
  rw [encodeCtor_eq, Val.ofValue, Pattern.bind, if_pos rfl, ofValues_eq, List.map_map, bindAll_vars]
  · rfl
  · rw [length_argumentVars, htypes, List.length_map, List.length_map]

theorem bind_encodeCtor_of_ne {ctor : Ctor} {name : String} (hname : ctor.name ≠ name)
    (names : Names) (arguments : List Value) :
    (encodeCtor ctor names).1.1.bind (Val.ofValue (.variant name arguments)) = none := by
  rw [encodeCtor_eq, Val.ofValue, Pattern.bind, if_neg hname]

/-- The branch of a constructor is the one that is taken for a value of that constructor. -/
theorem findSome?_encodeCtor {ctors : List Ctor} {ctor : Ctor} {slots : List Slot}
    (hctor : Wire.ctor? ctors ctor.name = .ok ctor)
    (htypes : ctor.arguments = slots.map Slot.type) (names : Names) :
    ∃ names', ((ctors.mapM encodeCtor) names).1.findSome? (fun branch =>
        (branch.1.bind (Val.ofValue (.variant ctor.name (slots.map Slot.value)))).map
          fun bound => (bound, branch.2)) =
      some (boundArguments ctor names' slots, (encodeCtor ctor names').1.2) := by
  rw [Wire.ctor?_eq_ok_iff] at hctor
  induction ctors generalizing names with
  | nil => simp at hctor
  | cons first rest ih =>
    rw [List.mapM_cons]
    show ∃ names', List.findSome? _ ((encodeCtor first names).1 ::
      ((rest.mapM encodeCtor) (encodeCtor first names).2).1) = _
    rw [List.find?_cons] at hctor
    by_cases hname : first.name = ctor.name
    · rw [decide_eq_true hname] at hctor
      cases hctor
      refine ⟨names, ?_⟩
      rw [List.findSome?_cons, bind_encodeCtor htypes]
      rfl
    · rw [decide_eq_false hname] at hctor
      obtain ⟨names', hfound⟩ := ih hctor (encodeCtor first names).2
      refine ⟨names', ?_⟩
      rw [List.findSome?_cons, bind_encodeCtor_of_ne hname]
      exact hfound

theorem encodeCtors_eq (ctors : List Ctor) (names : Names) :
    (encodeCtors ctors names).1 =
      .lambda [.var (freshValue names).1] (.case (.var (freshValue names).1)
        ((ctors.mapM encodeCtor) (freshValue names).2).1) := rfl

/-- **The encoder of a custom type.** -/
theorem apply_encodeCtors (hreserved : schema.NonReserved) {ctors : List Ctor} {ctor : Ctor}
    {slots : List Slot} (hctor : Wire.ctor? ctors ctor.name = .ok ctor)
    (htypes : ctor.arguments = slots.map Slot.type)
    (h : ∀ slot ∈ slots, ComputesOf schema slot.type slot.value slot.json) (names : Names) :
    ∃ f, eval schema.toElm [] (encodeCtors ctors names).1 = some f ∧
      apply schema.toElm f (Val.ofValue (.variant ctor.name (slots.map Slot.value))) =
        some (.json (Wire.envelope ctor.name (slots.map Slot.json))) := by
  obtain ⟨names', hfound⟩ := findSome?_encodeCtor hctor htypes (freshValue names).2
  refine ⟨_, by rw [encodeCtors_eq, eval], ?_⟩
  rw [apply_lambda, eval_case (eval_var_local List.lookup_cons_self) hfound]
  exact eval_encodeCtor hreserved (Locals.nil.cons (isLocal_freshValue names) _) htypes h names'

/-! ## All types -/

/-- A type with an encoder of its own in the libraries or the toolkit. -/
theorem computes_builtin (hreserved : schema.NonReserved) {type : Ty} {value : Value} {json : Json}
    {name : String} {f : Builtin} (hencoder : ∀ names, (encoder type names).1 = .var name)
    (hname : builtins.lookup name = some (.builtin f [])) (harity : f.arity = 1)
    (horder : f.isHigherOrder = false) (hbuild : build f [Val.ofValue value] = some (.json json)) :
    Computes schema type value json := by
  intro names env g henv hg
  rw [hencoder, eval_builtin hreserved henv hname] at hg
  cases hg
  rw [apply_builtin_last _ (by rw [harity]; rfl), call_eq_build horder]
  exact hbuild

theorem computes_list (hreserved : schema.NonReserved) {item : Ty} {slots : List (Value × Json)}
    (hover : item.Over schema) (h : ∀ slot ∈ slots, Computes schema item slot.1 slot.2) :
    Computes schema (.list item) (.list (slots.map Prod.fst)) (.array (slots.map Prod.snd)) := by
  intro names env f henv hf
  obtain ⟨g, hg⟩ := exists_eval_encoder hreserved henv item names hover
  rw [eval_encoder_list hreserved henv hg] at hf
  cases hf
  rw [apply_builtin_last _ rfl, Val.ofValue, ofValues_eq]
  refine call_jsonList ?_
  rw [List.map_map, List.map_map]
  exact mapM_map_eq_some fun slot hmem => h slot hmem names env g henv hg

theorem computes_pair (hreserved : schema.NonReserved) {a b : Slot} (ha : a.type.Over schema)
    (hb : b.type.Over schema) (iha : Computes schema a.type a.value a.json)
    (ihb : Computes schema b.type b.value b.json) :
    Computes schema (.pair a.type b.type) (.tuple [a.value, b.value])
      (.array [a.json, b.json]) := by
  intro names env f henv hf
  obtain ⟨g, hg⟩ := exists_eval_encoder hreserved henv a.type names ha
  obtain ⟨h, hh⟩ := exists_eval_encoder hreserved henv b.type (encoder a.type names).2 hb
  rw [eval_encoder_pair hreserved henv hg hh] at hf
  cases hf
  rw [apply_builtin_last _ rfl]
  exact call_encodeTuple2 (iha names env g henv hg) (ihb _ env h henv hh)

theorem computes_triple (hreserved : schema.NonReserved) {a b c : Slot} (ha : a.type.Over schema)
    (hb : b.type.Over schema) (hc : c.type.Over schema)
    (iha : Computes schema a.type a.value a.json) (ihb : Computes schema b.type b.value b.json)
    (ihc : Computes schema c.type c.value c.json) :
    Computes schema (.triple a.type b.type c.type) (.tuple [a.value, b.value, c.value])
      (.array [a.json, b.json, c.json]) := by
  intro names env f henv hf
  obtain ⟨g, hg⟩ := exists_eval_encoder hreserved henv a.type names ha
  obtain ⟨h, hh⟩ := exists_eval_encoder hreserved henv b.type (encoder a.type names).2 hb
  obtain ⟨k, hk⟩ := exists_eval_encoder hreserved henv c.type
    (encoder b.type (encoder a.type names).2).2 hc
  rw [eval_encoder_triple hreserved henv hg hh hk] at hf
  cases hf
  rw [apply_builtin_last _ rfl]
  exact call_encodeTuple3 (iha names env g henv hg) (ihb _ env h henv hh) (ihc _ env k henv hk)

theorem computes_just (hreserved : schema.NonReserved) {slot : Slot} (hover : slot.type.Over schema)
    (ih : Computes schema slot.type slot.value slot.json) :
    Computes schema (.maybe slot.type) (.variant Wire.just [slot.value])
      (Wire.envelope Wire.just [slot.json]) := by
  intro names env f henv hf
  obtain ⟨g, hg⟩ := exists_eval_encoder hreserved henv slot.type names hover
  rw [eval_encoder_maybe hreserved henv hg] at hf
  cases hf
  rw [apply_builtin_last _ rfl]
  exact call_encodeMaybe_just (ih names env g henv hg)

theorem computes_nothing (hreserved : schema.NonReserved) {item : Ty} (hover : item.Over schema) :
    Computes schema (.maybe item) (.variant Wire.nothing []) (Wire.envelope Wire.nothing []) := by
  intro names env f henv hf
  obtain ⟨g, hg⟩ := exists_eval_encoder hreserved henv item names hover
  rw [eval_encoder_maybe hreserved henv hg] at hf
  cases hf
  rw [apply_builtin_last _ rfl]
  exact call_encodeMaybe_nothing

theorem computes_ok (hreserved : schema.NonReserved) {error : Ty} {slot : Slot}
    (herror : error.Over schema) (hover : slot.type.Over schema)
    (ih : Computes schema slot.type slot.value slot.json) :
    Computes schema (.result error slot.type) (.variant Wire.ok [slot.value])
      (Wire.envelope Wire.ok [slot.json]) := by
  intro names env f henv hf
  obtain ⟨g, hg⟩ := exists_eval_encoder hreserved henv error names herror
  obtain ⟨h, hh⟩ := exists_eval_encoder hreserved henv slot.type (encoder error names).2 hover
  rw [eval_encoder_result hreserved henv hg hh] at hf
  cases hf
  rw [apply_builtin_last _ rfl]
  exact call_encodeResult_ok (ih _ env h henv hh)

theorem computes_err (hreserved : schema.NonReserved) {success : Ty} {slot : Slot}
    (hsuccess : success.Over schema) (hover : slot.type.Over schema)
    (ih : Computes schema slot.type slot.value slot.json) :
    Computes schema (.result slot.type success) (.variant Wire.err [slot.value])
      (Wire.envelope Wire.err [slot.json]) := by
  intro names env f henv hf
  obtain ⟨g, hg⟩ := exists_eval_encoder hreserved henv slot.type names hover
  obtain ⟨h, hh⟩ := exists_eval_encoder hreserved henv success (encoder slot.type names).2 hsuccess
  rw [eval_encoder_result hreserved henv hg hh] at hf
  cases hf
  rw [apply_builtin_last _ rfl]
  exact call_encodeResult_err (ih names env g henv hg)

/-- A reference, from what the encoder of the definition does. -/
theorem computes_named {name : String} {d : TypeDef} (hget : schema.get? name = some d)
    {value : Value} {json : Json}
    (h : ∃ f, eval schema.toElm [] (encoderBody d) = some f ∧
      apply schema.toElm f (Val.ofValue value) = some (.json json)) :
    Computes schema (.named name) value json := by
  obtain ⟨f, hf, happly⟩ := h
  intro names env g henv hg
  have hname : schema.contains name := by rw [Schema.contains, hget]; rfl
  rw [encoder] at hg
  cases (eval_encoderName henv hname).symm.trans hg
  rw [apply_encoderName hget hf, happly]

/-- **Generated encoders compute the wire format**, by induction on how a message is put
together. -/
theorem computes_of_encodes (hreserved : schema.NonReserved) (hclosed : schema.Closed) {type : Ty}
    {value : Value} {json : Json} (h : Encodes schema type value json) (hover : type.Over schema) :
    Computes schema type value json ∧ ComputesOf schema type value json := by
  induction h with
  | @record slots values hfound _ ih =>
    have hof := computesOf_record hreserved hfound fun slot hmem =>
      (ih slot hmem (hover.field (List.mem_map_of_mem hmem))).2
    exact ⟨hof.function, hof⟩
  | unit =>
    have hf : Computes schema .unit .unit _ :=
      computes_builtin hreserved (fun _ => by rw [encoder]; rfl) rfl rfl rfl rfl
    exact hf.both hreserved (by simp) hover
  | bool b =>
    have hf : Computes schema .bool (.bool b) _ :=
      computes_builtin hreserved (fun _ => by rw [encoder]; rfl) rfl rfl rfl rfl
    exact hf.both hreserved (by simp) hover
  | @int n _ =>
    have hf : Computes schema .int (.int n) _ :=
      computes_builtin hreserved (fun _ => by rw [encoder]; rfl) rfl rfl rfl rfl
    exact hf.both hreserved (by simp) hover
  | @float x _ =>
    have hf : Computes schema .float (.float x) _ :=
      computes_builtin hreserved (fun _ => by rw [encoder]; rfl) rfl rfl rfl rfl
    exact hf.both hreserved (by simp) hover
  | char c =>
    have hf : Computes schema .char (.char c) _ :=
      computes_builtin hreserved (fun _ => by rw [encoder]; rfl) rfl rfl rfl rfl
    exact hf.both hreserved (by simp) hover
  | string s =>
    have hf : Computes schema .string (.string s) _ :=
      computes_builtin hreserved (fun _ => by rw [encoder]; rfl) rfl rfl rfl rfl
    exact hf.both hreserved (by simp) hover
  | @list item _ _ ih =>
    have hitem : item.Over schema := hover
    have hf := computes_list hreserved hitem fun slot hmem => (ih slot hmem hitem).1
    exact hf.both hreserved (by simp) hover
  | pair _ _ iha ihb =>
    obtain ⟨ha, hb⟩ := Ty.over_pair.1 hover
    have hf := computes_pair hreserved ha hb (iha ha).1 (ihb hb).1
    exact hf.both hreserved (by simp) hover
  | triple _ _ _ iha ihb ihc =>
    obtain ⟨ha, hb, hc⟩ := Ty.over_triple.1 hover
    have hf := computes_triple hreserved ha hb hc (iha ha).1 (ihb hb).1 (ihc hc).1
    exact hf.both hreserved (by simp) hover
  | just _ ih =>
    have hf := computes_just hreserved hover (ih hover).1
    exact hf.both hreserved (by simp) hover
  | nothing item =>
    have hitem : item.Over schema := hover
    have hf := computes_nothing hreserved hitem
    exact hf.both hreserved (by simp) hover
  | ok error _ ih =>
    obtain ⟨herror, hslot⟩ := Ty.over_result.1 hover
    have hf := computes_ok hreserved herror hslot (ih hslot).1
    exact hf.both hreserved (by simp) hover
  | err success _ ih =>
    obtain ⟨hslot, hsuccess⟩ := Ty.over_result.1 hover
    have hf := computes_err hreserved hsuccess hslot (ih hslot).1
    exact hf.both hreserved (by simp) hover
  | @hop name d type value json hget _ ih =>
    have htype := hclosed.alias hget
    obtain ⟨f, hf⟩ := exists_eval_encoder hreserved Locals.nil type Names.none htype
    have hnamed := computes_named hget ⟨f, hf, (ih htype).1 Names.none [] f Locals.nil hf⟩
    exact hnamed.both hreserved (by simp) hover
  | @custom name d tag ctors ctor slots hget hctor htypes _ ih =>
    have hslots : ∀ slot ∈ slots, ComputesOf schema slot.type slot.value slot.json := by
      intro slot hmem
      have htype : slot.type ∈ ctor.arguments := htypes ▸ List.mem_map_of_mem hmem
      exact (ih slot hmem (hclosed.argument hget (Wire.mem_of_ctor? hctor) htype)).2
    cases Wire.name_of_ctor? hctor
    have hnamed := computes_named hget
      (apply_encodeCtors hreserved hctor htypes hslots Names.none)
    exact hnamed.both hreserved (by simp) hover

theorem contains_of_encodes {name : String} {value : Value} {json : Json}
    (h : Encodes schema (.named name) value json) : schema.contains name := by
  cases h with
  | hop hget _ => rw [Schema.contains, hget]; rfl
  | custom hget _ _ _ => rw [Schema.contains, hget]; rfl

end

/-- **The generated encoders compute the reference encoding.**  Of a schema without reserved names
and undefined references, in the module that is generated for it:

* what the encoder of a type makes of a value is exactly what the value is encoded as;
* and so it is with the encoder of every definition. -/
theorem eval_encoder_eq_encode (schema : Schema) (hreserved : schema.NonReserved)
    (hclosed : schema.Closed) :
    (∀ (type : Ty) (value : Value) (json : Json) (names : Names), type.Over schema →
      Wire.encode schema type value = .ok json →
        applyExpr schema.toElm (encoder type names).1 (Val.ofValue value) = some (.json json)) ∧
    ∀ (name : String) (value : Value) (json : Json),
      Wire.encodeNamed schema name value = .ok json →
        applyExpr schema.toElm (.var (encoderName name)) (Val.ofValue value) =
          some (.json json) := by
  have htypes : ∀ (type : Ty) (value : Value) (json : Json) (names : Names), type.Over schema →
      Wire.encode schema type value = .ok json →
        applyExpr schema.toElm (encoder type names).1 (Val.ofValue value) = some (.json json) := by
    intro type value json names hover hencode
    obtain ⟨f, hf⟩ := exists_eval_encoder hreserved Locals.nil type names hover
    have hcomputes := computes_of_encodes hreserved hclosed (Wire.encode_eq_ok_iff.1 hencode) hover
    rw [applyExpr, hf]
    exact hcomputes.1 names [] f Locals.nil hf
  refine ⟨htypes, fun name value json hencode => ?_⟩
  have hname := contains_of_encodes (Wire.encode_eq_ok_iff.1 hencode)
  have hover : (Ty.named name).Over schema := fun other hmem => List.mem_singleton.1 hmem ▸ hname
  have hnamed := htypes (.named name) value json Names.none hover hencode
  rwa [encoder] at hnamed

/-- The encoder of trees, on a tree of one node. -/
theorem eval_encoder_tree :
    treeSchema.NonReserved ∧ treeSchema.Closed ∧
    ∃ json, Wire.encodeNamed treeSchema "Tree" (.variant "Node"
        [.variant "Leaf" [], .record [("size", .int 1)], .variant "Leaf" []]) = .ok json ∧
      applyExpr treeSchema.toElm (.var (encoderName "Tree")) (Val.ofValue (.variant "Node"
        [.variant "Leaf" [], .record [("size", .int 1)], .variant "Leaf" []])) =
        some (.json json) := by
  have hreserved : treeSchema.NonReserved := by decide
  have hclosed : treeSchema.Closed := by decide
  exact ⟨hreserved, hclosed, _, rfl,
    (eval_encoder_eq_encode treeSchema hreserved hclosed).2 "Tree" _ _ rfl⟩

end ElmWire.Elm
