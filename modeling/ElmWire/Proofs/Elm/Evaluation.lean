import ElmWire.Proofs.Failing
import ElmWire.Proofs.Elm.Value

/-!
# Evaluating Elm code

An evaluator for the fragment of Elm that generated code is written in.

* `eval`, `apply`, `call`, `run` — evaluating an expression, applying a value, calling a function
  of the libraries or the toolkit with all of its arguments, and running a decoder on JSON.

Evaluation need not end, so the four are fixed points: an answer of `none` is an evaluation that is
stuck or does not end, and a refusal of a decoder is an answer.

The values of a module may mention each other and themselves, so the name of one is kept as a
reference (`Val.global`) that is followed where the value is used.

The lemmas give one equation for each construct, and say how a function takes its arguments, one
after the other.
-/

set_option autoImplicit false
namespace ElmWire.Elm

/-! ## Patterns and names -/

mutual

/-- The variables that a pattern binds when it matches a value. -/
def Pattern.bind : Pattern → Val → Option (List (String × Val))
  | .var x, v => some [(x, v)]
  | .wildcard, _ => some []
  | .ctor name patterns, .ctor other arguments =>
    if name = other then bindAll patterns arguments else none
  | .ctor _ _, _ => none

/-- The variables that patterns bind when each matches its value. -/
def bindAll : List Pattern → List Val → Option (List (String × Val))
  | [], [] => some []
  | pattern :: patterns, v :: vs => return (← pattern.bind v) ++ (← bindAll patterns vs)
  | _, _ => none

end

/-- The body of the value with a name. -/
def body? (decls : List Decl) (name : String) : Option Expr :=
  decls.findSome? fun
    | .value other _ body => if other = name then some body else none
    | _ => none

/-- The constructor with a name: one of a custom type, or that of a record alias. -/
def constructor? (decls : List Decl) (name : String) : Option Val :=
  decls.findSome? fun
    | .custom _ ctors => if name ∈ ctors.map Prod.fst then some (.ctor name []) else none
    | .alias other (.record fields) =>
      if other = name then some (.recordCtor (fields.map Prod.fst) []) else none
    | _ => none

/-- What a name means that is not that of a local variable. -/
def resolve (decls : List Decl) (name : String) : Option Val :=
  if (body? decls name).isSome then some (.global name)
  else (builtins.lookup name).or (constructor? decls name)

/-- The constructor of a record alias with some arguments, which is a record when it has all. -/
def recordOf (fields : List String) (arguments : List Val) : Val :=
  if arguments.length < fields.length then .recordCtor fields arguments
  else .record (Members.ofList (fields.zip arguments))

/-! ## Evaluating -/

/-- Why a decoder refuses JSON. -/
inductive Problem where
  /-- The JSON is not what the decoder is for. -/
  | expecting (what : String)
  /-- The decoder fails by itself. -/
  | failure (message : String)

/-- Does `Json.Decode.int` accept the integer? -/
def isElmInt (i : Int) : Bool := -9007199254740991 ≤ i && i ≤ 9007199254740991

/-- What `Json.Decode.int` makes of a number. -/
def intOf (n : Json.Number) : Except Problem Val :=
  match n.toInt? with
  | some i => if isElmInt i then .ok (.int i) else .error (.expecting "an INT")
  | none => .error (.expecting "an INT")

mutual

/-- The value of an expression, with local variables and the declarations of a module. -/
def Expr.eval (decls : List Decl) (env : List (String × Val)) (e : Expr) : Option Val :=
  match e with
  | .var x => (env.lookup x).or (resolve decls x)
  | .string s => some (.string s)
  | .int n => some (.int n)
  | .app function arguments => do
    let f ← function |>.eval decls env
    let vs ← arguments.mapM fun e => e |>.eval decls env
    vs.foldlM (fun f v => f |>.apply decls v) f
  | .lambda params body => some (.closure env params body)
  | .list items => return .list (← items.mapM fun e => e |>.eval decls env)
  | .tuple items => return .tuple (← items.mapM fun e => e |>.eval decls env)
  | .record fields => do
    let vs ← fields.mapM fun field => do return (field.1, ← field.2 |>.eval decls env)
    return .record (Members.ofList vs)
  | .access subject field => do
    match ← subject |>.eval decls env with
    | .record fields => fields.lookup field
    | _ => none
  | .case scrutinee branches => do
    let v ← scrutinee |>.eval decls env
    let (bound, body) ← branches.findSome? fun branch =>
      (branch.1.bind v).map fun bound => (bound, branch.2)
    body |>.eval decls (bound ++ env)
  | .pipe head stages => do
    let v ← head |>.eval decls env
    stages.foldlM (fun v stage => do (← stage |>.eval decls env) |>.apply decls v) v
partial_fixpoint

/-- The result of applying a value to an argument. -/
def Val.apply (decls : List Decl) (function argument : Val) : Option Val :=
  match function with
  | .closure env [param] body => do
    let bound ← param.bind argument
    body |>.eval decls (bound ++ env)
  | .closure env (param :: params) body => do
    let bound ← param.bind argument
    return .closure (bound ++ env) params body
  | .builtin f arguments =>
    if arguments.length + 1 < f.arity then some (.builtin f (arguments ++ [argument]))
    else f |>.call decls (arguments ++ [argument])
  | .ctor name arguments => some (.ctor name (arguments ++ [argument]))
  | .recordCtor fields arguments => some (recordOf fields (arguments ++ [argument]))
  | .global name => do
    let f ← (← body? decls name) |>.eval decls []
    f |>.apply decls argument
  | _ => none
partial_fixpoint

/-- The result of calling a function with all of its arguments. -/
def Builtin.call (decls : List Decl) (f : Builtin) (arguments : List Val) : Option Val :=
  match f, arguments with
  | .jsonList, [encode, .list items] => do
    let encoded ← items.mapM fun item => encode |>.apply decls item
    return .json (.array (← encoded.mapM Val.json?))
  | .encodeTuple2, [encodeA, encodeB, .tuple [a, b]] => do
    let encoded := [← encodeA |>.apply decls a, ← encodeB |>.apply decls b]
    return .json (.array (← encoded.mapM Val.json?))
  | .encodeTuple3, [encodeA, encodeB, encodeC, .tuple [a, b, c]] => do
    let encoded :=
      [← encodeA |>.apply decls a, ← encodeB |>.apply decls b, ← encodeC |>.apply decls c]
    return .json (.array (← encoded.mapM Val.json?))
  | .encodeMaybe, [encodeA, .ctor "Just" [a]] => do
    return encodeVariant Wire.just [← (← encodeA |>.apply decls a).json?]
  | .encodeMaybe, [_, .ctor "Nothing" []] => return encodeVariant Wire.nothing []
  | .encodeResult, [_, encodeA, .ctor "Ok" [a]] => do
    return encodeVariant Wire.ok [← (← encodeA |>.apply decls a).json?]
  | .encodeResult, [encodeE, _, .ctor "Err" [e]] => do
    return encodeVariant Wire.err [← (← encodeE |>.apply decls e).json?]
  | .forward, [a, function] => function |>.apply decls a
  | f, arguments => build f arguments
partial_fixpoint

/-- What a decoder makes of JSON. -/
def Val.run (decls : List Decl) (decoder : Val) (json : Json) : Option (Except Problem Val) :=
  match decoder with
  | .decoder .bool =>
    match json with
    | .bool b => some (.ok (.bool b))
    | _ => some (.error (.expecting "a BOOL"))
  | .decoder .int =>
    match json with
    | .number n => some (intOf n)
    | _ => some (.error (.expecting "an INT"))
  | .decoder .float =>
    match json with
    | .number n => some (.ok (.float n.toFloat))
    | _ => some (.error (.expecting "a FLOAT"))
  | .decoder .string =>
    match json with
    | .string s => some (.ok (.string s))
    | _ => some (.error (.expecting "a STRING"))
  | .decoder (.list item) =>
    match json with
    | .array items => do
      let results ← items.mapM fun json => item |>.run decls json
      return (results.mapM id).map .list
    | _ => some (.error (.expecting "a LIST"))
  | .decoder (.field name decoder) =>
    match json with
    | .object members =>
      match members.lookup name with
      | some json => decoder |>.run decls json
      | none => some (.error (.expecting ("an OBJECT with a field named `" ++ name ++ "`")))
    | _ => some (.error (.expecting "an OBJECT"))
  | .decoder (.index i decoder) =>
    match json with
    | .array items =>
      match items[i]? with
      | some json => decoder |>.run decls json
      | none => some (.error (.expecting "a longer array"))
    | _ => some (.error (.expecting "an ARRAY"))
  | .decoder (.map function decoders) => do
    let results ← decoders.mapM fun decoder => decoder |>.run decls json
    match results.mapM id with
    | .ok vs => return .ok (← vs.foldlM (fun f v => f |>.apply decls v) function)
    | .error problem => return .error problem
  | .decoder (.andThen function decoder) => do
    match ← decoder |>.run decls json with
    | .ok v => (← function |>.apply decls v) |>.run decls json
    | .error problem => return .error problem
  | .decoder (.lazy thunk) => do (← thunk |>.apply decls .unit) |>.run decls json
  | .decoder (.succeed v) => some (.ok v)
  | .decoder (.fail message) => some (.error (.failure message))
  | .global name => do (← (← body? decls name) |>.eval decls []) |>.run decls json
  | _ => none
partial_fixpoint

end

export Expr (eval)
export Val (apply run)
export Builtin (call)

/-- The result of applying an expression of a module to a value. -/
def applyExpr (decls : List Decl) (e : Expr) (v : Val) : Option Val := do
  apply decls (← eval decls [] e) v

/-- What an expression of a module that denotes a decoder makes of JSON. -/
def runExpr (decls : List Decl) (e : Expr) (json : Json) : Option (Except Problem Val) := do
  run decls (← eval decls [] e) json

/-! ## Collecting results -/

theorem mapM_json? (items : List Json) : (items.map Val.json).mapM Val.json? = some items := by
  have h := @mapM_map_eq_some _ _ _ Val.json? items Val.json id fun _ _ => rfl
  rwa [List.map_id] at h

/-! ## One equation for each construct -/

section

variable {decls : List Decl} {env : List (String × Val)}

theorem eval_var_local {x : String} {v : Val} (h : env.lookup x = some v) :
    eval decls env (.var x) = some v := by
  rw [eval, h]
  rfl

theorem eval_var_of_lookup_none {x : String} (h : env.lookup x = none) :
    eval decls env (.var x) = resolve decls x := by
  rw [eval, h]
  rfl

theorem eval_app {function : Expr} {arguments : List Expr} {f : Val} {vs : List Val}
    (hf : eval decls env function = some f) (hvs : arguments.mapM (eval decls env) = some vs) :
    eval decls env (.app function arguments) = vs.foldlM (apply decls) f := by
  rw [eval, hf, Option.bind_eq_bind, Option.bind_some, hvs]
  rfl

theorem eval_list {items : List Expr} {vs : List Val} (h : items.mapM (eval decls env) = some vs) :
    eval decls env (.list items) = some (.list vs) := by
  rw [eval, h]
  rfl

theorem eval_tuple {items : List Expr} {vs : List Val} (h : items.mapM (eval decls env) = some vs) :
    eval decls env (.tuple items) = some (.tuple vs) := by
  rw [eval, h]
  rfl

theorem eval_access {subject : Expr} {field : String} {fields : List (String × Val)}
    (h : eval decls env subject = some (.record fields)) :
    eval decls env (.access subject field) = fields.lookup field := by
  rw [eval, h]
  rfl

theorem eval_case {scrutinee : Expr} {branches : List (Pattern × Expr)} {v : Val}
    {bound : List (String × Val)} {body : Expr} (hv : eval decls env scrutinee = some v)
    (hbranch : branches.findSome? (fun branch =>
      (branch.1.bind v).map fun bound => (bound, branch.2)) = some (bound, body)) :
    eval decls env (.case scrutinee branches) = eval decls (bound ++ env) body := by
  rw [eval, hv, Option.bind_eq_bind, Option.bind_some, hbranch]
  rfl

theorem apply_lambda {x : String} {body : Expr} {v : Val} :
    apply decls (.closure env [.var x] body) v = eval decls ((x, v) :: env) body := by
  rw [apply, Pattern.bind]
  rfl

/-- Applying an application is applying once more. -/
theorem eval_apply {e : Expr} {arguments : List Expr} {f : Val} {vs : List Val}
    (he : eval decls env e = some f) (hvs : arguments.mapM (eval decls env) = some vs) :
    eval decls env (e.apply arguments) = vs.foldlM (apply decls) f := by
  cases arguments with
  | nil =>
    cases hvs
    exact he
  | cons first rest =>
    cases e with
    | app function earlier =>
      rw [eval] at he
      obtain ⟨g, hg, he⟩ := Option.bind_eq_some_iff.1 he
      obtain ⟨us, hus, he⟩ := Option.bind_eq_some_iff.1 he
      have hall : (earlier ++ first :: rest).mapM (eval decls env) = some (us ++ vs) := by
        rw [List.mapM_append, hus, hvs]
        rfl
      show eval decls env (.app function (earlier ++ first :: rest)) = _
      rw [eval_app hg hall, List.foldlM_append, he]
      rfl
    | _ => exact eval_app he hvs

theorem eval_call {x : String} {arguments : List Expr} {f : Val} {vs : List Val}
    (hx : eval decls env (.var x) = some f) (hvs : arguments.mapM (eval decls env) = some vs) :
    eval decls env (.call x arguments) = vs.foldlM (apply decls) f := eval_apply hx hvs

/-- A function of the libraries waits for all of its arguments. -/
theorem foldlM_apply_builtin_of_lt {f : Builtin} {arguments vs : List Val}
    (h : arguments.length + vs.length < f.arity) :
    vs.foldlM (apply decls) (.builtin f arguments) = some (.builtin f (arguments ++ vs)) := by
  induction vs generalizing arguments with
  | nil => simp
  | cons v vs ih =>
    rw [List.length_cons] at h
    rw [List.foldlM_cons, apply, if_pos (by omega)]
    show vs.foldlM (apply decls) _ = _
    rw [ih (by simp; omega), List.append_assoc]
    rfl

/-- Does the function apply one of its arguments? -/
def Builtin.isHigherOrder : Builtin → Bool
  | .jsonList | .encodeTuple2 | .encodeTuple3 | .encodeMaybe | .encodeResult | .forward => true
  | _ => false

theorem call_eq_build {f : Builtin} (h : f.isHigherOrder = false) (arguments : List Val) :
    call decls f arguments = build f arguments := by
  cases f <;> first | exact absurd h (by decide) | rw [Builtin.call.eq_def]

theorem apply_builtin_last {f : Builtin} {arguments : List Val} (v : Val)
    (h : arguments.length + 1 = f.arity) :
    apply decls (.builtin f arguments) v = call decls f (arguments ++ [v]) := by
  rw [apply, if_neg (by omega)]

theorem Builtin.arity_pos (f : Builtin) : 0 < f.arity := by cases f <;> simp [Builtin.arity]

/-- A function of the libraries is called with all of its arguments. -/
theorem foldlM_apply_builtin {f : Builtin} {vs : List Val} (h : vs.length = f.arity) :
    vs.foldlM (apply decls) (.builtin f []) = call decls f vs := by
  rcases List.eq_nil_or_concat vs with rfl | ⟨init, last, rfl⟩
  · exact absurd h.symm (Nat.pos_iff_ne_zero.1 f.arity_pos)
  · rw [List.concat_eq_append, List.length_append, List.length_singleton] at h
    rw [List.concat_eq_append, List.foldlM_append, foldlM_apply_builtin_of_lt (by simp; omega)]
    show [last].foldlM (apply decls) (.builtin f init) = _
    rw [List.foldlM_cons, apply_builtin_last last h]
    simp

theorem foldlM_apply_ctor {name : String} {arguments vs : List Val} :
    vs.foldlM (apply decls) (.ctor name arguments) = some (.ctor name (arguments ++ vs)) := by
  induction vs generalizing arguments with
  | nil => simp
  | cons v vs ih =>
    rw [List.foldlM_cons, apply]
    show vs.foldlM (apply decls) _ = _
    rw [ih, List.append_assoc]
    rfl

/-! ## The encoders of the libraries and the toolkit -/

theorem call_jsonList {encode : Val} {items : List Val} {jsons : List Json}
    (h : items.mapM (apply decls encode) = some (jsons.map .json)) :
    call decls .jsonList [encode, .list items] = some (.json (.array jsons)) := by
  rw [call, h, Option.bind_eq_bind, Option.bind_some, mapM_json?]
  rfl

theorem call_encodeTuple2 {encodeA encodeB a b : Val} {j k : Json}
    (ha : apply decls encodeA a = some (.json j)) (hb : apply decls encodeB b = some (.json k)) :
    call decls .encodeTuple2 [encodeA, encodeB, .tuple [a, b]] = some (.json (.array [j, k])) := by
  rw [call, ha, hb]
  rfl

theorem call_encodeTuple3 {encodeA encodeB encodeC a b c : Val} {j k l : Json}
    (ha : apply decls encodeA a = some (.json j)) (hb : apply decls encodeB b = some (.json k))
    (hc : apply decls encodeC c = some (.json l)) :
    call decls .encodeTuple3 [encodeA, encodeB, encodeC, .tuple [a, b, c]] =
      some (.json (.array [j, k, l])) := by
  rw [call, ha, hb, hc]
  rfl

theorem call_encodeMaybe_just {encodeA a : Val} {j : Json}
    (h : apply decls encodeA a = some (.json j)) :
    call decls .encodeMaybe [encodeA, .ctor "Just" [a]] = some (encodeVariant Wire.just [j]) := by
  rw [call, h]
  rfl

theorem call_encodeMaybe_nothing {encodeA : Val} :
    call decls .encodeMaybe [encodeA, .ctor "Nothing" []] =
      some (encodeVariant Wire.nothing []) := by
  rw [call]
  rfl

theorem call_encodeResult_ok {encodeE encodeA a : Val} {j : Json}
    (h : apply decls encodeA a = some (.json j)) :
    call decls .encodeResult [encodeE, encodeA, .ctor "Ok" [a]] =
      some (encodeVariant Wire.ok [j]) := by
  rw [call, h]
  rfl

theorem call_encodeResult_err {encodeE encodeA e : Val} {j : Json}
    (h : apply decls encodeE e = some (.json j)) :
    call decls .encodeResult [encodeE, encodeA, .ctor "Err" [e]] =
      some (encodeVariant Wire.err [j]) := by
  rw [call, h]
  rfl

end

end ElmWire.Elm
