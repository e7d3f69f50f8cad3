import ElmWire.Proofs.Elm.Module
import ElmWire.Proofs.Elm.Scope

/-!
# Hygiene of generated code

Elm does not allow a variable to hide another.  `Expr.bound` are the variables that an expression
binds anywhere in it, and `Expr.uses` are the places where it uses a variable, each with what is in
scope there.

* `Names.Covers` — the variables in hand are different from each other, and all of them have been
  handed out.  A new variable is then different from all of them (`Names.Covers.push`).
* `Draws` — a generator that starts with such variables ends with such variables, among them those
  that its result binds.  The rules for it follow the generators.
* `mem_free_iff` — a variable is free in an expression if it is used out of the scope of its
  binders.  So what generated code leaves to its module decides where its variables are used.
* `codecs_hygienic` — the variables of an encoder are different from each other and from all other
  functions of the module, and are used in their scope only.  For a decoder the same holds unless a
  constructor of the definition is spelled like one of the variables.
-/

set_option autoImplicit false
namespace ElmWire.Elm

/-! ## Variables and their scopes -/

mutual

/-- The variables that an expression binds anywhere in it, each as often as it is bound. -/
@[simp] def Expr.bound : Expr → List String
  | .var _ | .string _ | .int _ => []
  | .app function arguments => function.bound ++ boundAll arguments
  | .lambda params body => bindersAll params ++ body.bound
  | .list items | .tuple items => boundAll items
  | .record fields => boundFields fields
  | .access subject _ => subject.bound
  | .case scrutinee branches => scrutinee.bound ++ boundBranches branches
  | .pipe head stages => head.bound ++ boundAll stages

/-- The variables that several expressions bind. -/
@[simp] def boundAll : List Expr → List String
  | [] => []
  | e :: rest => e.bound ++ boundAll rest

/-- The variables that the fields of a record bind. -/
@[simp] def boundFields : List (String × Expr) → List String
  | [] => []
  | (_, e) :: rest => e.bound ++ boundFields rest

/-- The variables that the branches of a case expression bind, in patterns and in bodies. -/
@[simp] def boundBranches : List (Pattern × Expr) → List String
  | [] => []
  | (pattern, body) :: rest => pattern.binders ++ body.bound ++ boundBranches rest

end

mutual

/-- The places of an expression that use a variable: the variable, and the variables in scope
there, if `scope` are those around the expression. -/
@[simp] def Expr.uses (scope : List String) : Expr → List (String × List String)
  | .var name => [(name, scope)]
  | .string _ | .int _ => []
  | .app function arguments => function.uses scope ++ usesAll scope arguments
  | .lambda params body => body.uses (bindersAll params ++ scope)
  | .list items | .tuple items => usesAll scope items
  | .record fields => usesFields scope fields
  | .access subject _ => subject.uses scope
  | .case scrutinee branches => scrutinee.uses scope ++ usesBranches scope branches
  | .pipe head stages => head.uses scope ++ usesAll scope stages

/-- The places of several expressions that use a variable. -/
@[simp] def usesAll (scope : List String) : List Expr → List (String × List String)
  | [] => []
  | e :: rest => e.uses scope ++ usesAll scope rest

/-- The places of the fields of a record that use a variable. -/
@[simp] def usesFields (scope : List String) : List (String × Expr) → List (String × List String)
  | [] => []
  | (_, e) :: rest => e.uses scope ++ usesFields scope rest

/-- The places of the branches of a case expression that use a variable. -/
@[simp] def usesBranches (scope : List String) :
    List (Pattern × Expr) → List (String × List String)
  | [] => []
  | (pattern, body) :: rest => body.uses (pattern.binders ++ scope) ++ usesBranches scope rest

end

/-- What an expression binds anywhere is used in the scope of a binder only. -/
def Expr.Scoped (e : Expr) : Prop := ∀ use ∈ e.uses [], use.1 ∈ e.bound → use.1 ∈ use.2

instance (e : Expr) : Decidable e.Scoped := inferInstanceAs (Decidable (∀ use ∈ e.uses [], _))

/-- Some place uses the variable out of the scope of its binders. -/
def Escapes (x : String) (uses : List (String × List String)) : Prop :=
  ∃ scope, (x, scope) ∈ uses ∧ x ∉ scope

theorem escapes_append {x : String} {uses others : List (String × List String)} :
    Escapes x (uses ++ others) ↔ Escapes x uses ∨ Escapes x others := by
  simp only [Escapes, List.mem_append, or_and_right, exists_or]

mutual

/-- **Free variables are those that are used out of scope.** -/
theorem mem_free_iff (x : String) (scope : List String) : ∀ e : Expr,
    Escapes x (e.uses scope) ↔ x ∈ e.free ∧ x ∉ scope
  | .var name => by simp [Escapes]
  | .string _ | .int _ => by simp [Escapes]
  | .app function arguments => by
    rw [Expr.uses, Expr.free, escapes_append, mem_free_iff x scope function,
      mem_freeAll_iff x scope arguments, List.mem_append, or_and_right]
  | .lambda params body => by
    rw [Expr.uses, Expr.free, mem_free_iff x _ body, List.mem_append, List.mem_filter,
      decide_eq_true_eq, not_or, and_assoc]
  | .list items | .tuple items => by
    rw [Expr.uses, Expr.free, mem_freeAll_iff x scope items]
  | .record fields => by rw [Expr.uses, Expr.free, mem_freeFields_iff x scope fields]
  | .access subject _ => by rw [Expr.uses, Expr.free, mem_free_iff x scope subject]
  | .case scrutinee branches => by
    rw [Expr.uses, Expr.free, escapes_append, mem_free_iff x scope scrutinee,
      mem_freeBranches_iff x scope branches, List.mem_append, or_and_right]
  | .pipe head stages => by
    rw [Expr.uses, Expr.free, escapes_append, mem_free_iff x scope head,
      mem_freeAll_iff x scope stages, List.mem_append, or_and_right]

theorem mem_freeAll_iff (x : String) (scope : List String) : ∀ es : List Expr,
    Escapes x (usesAll scope es) ↔ x ∈ freeAll es ∧ x ∉ scope
  | [] => by simp [Escapes]
  | e :: rest => by
    rw [usesAll, freeAll, escapes_append, mem_free_iff x scope e, mem_freeAll_iff x scope rest,
      List.mem_append, or_and_right]

theorem mem_freeFields_iff (x : String) (scope : List String) : ∀ fields : List (String × Expr),
    Escapes x (usesFields scope fields) ↔ x ∈ freeFields fields ∧ x ∉ scope
  | [] => by simp [Escapes]
  | (_, e) :: rest => by
    rw [usesFields, freeFields, escapes_append, mem_free_iff x scope e,
      mem_freeFields_iff x scope rest, List.mem_append, or_and_right]

theorem mem_freeBranches_iff (x : String) (scope : List String) :
    ∀ branches : List (Pattern × Expr),
      Escapes x (usesBranches scope branches) ↔ x ∈ freeBranches branches ∧ x ∉ scope
  | [] => by simp [Escapes]
  | (pattern, body) :: rest => by
    rw [usesBranches, freeBranches, escapes_append, mem_free_iff x _ body,
      mem_freeBranches_iff x scope rest, List.mem_append, List.mem_append, List.mem_filter,
      decide_eq_true_eq, not_or, or_and_right, and_assoc]

end

/-- An expression uses its variables in scope if it leaves none of them to the module around it. -/
theorem Expr.scoped_iff {e : Expr} : e.Scoped ↔ ∀ x ∈ e.bound, x ∉ e.free := by
  have hfree : ∀ x, x ∈ e.free ↔ Escapes x (e.uses []) := fun x => by simp [mem_free_iff]
  constructor
  · intro h x hbound hx
    obtain ⟨scope, huse, hout⟩ := (hfree x).1 hx
    exact hout (h _ huse hbound)
  · intro h use huse hbound
    by_contra hout
    exact h use.1 hbound ((hfree use.1).2 ⟨use.2, huse, hout⟩)

/-! ### Expressions that are put together -/

theorem bindersAll_map_var (names : List String) : bindersAll (names.map .var) = names := by
  induction names with
  | nil => rw [List.map_nil, bindersAll]
  | cons name rest ih =>
    rw [List.map_cons, bindersAll, Pattern.binders, ih, List.singleton_append]

theorem boundAll_eq_flatMap (es : List Expr) : boundAll es = es.flatMap Expr.bound := by
  induction es with
  | nil => rfl
  | cons e rest ih => rw [boundAll, ih, List.flatMap_cons]

theorem boundBranches_eq_flatMap (branches : List (Pattern × Expr)) :
    boundBranches branches = branches.flatMap fun branch => branch.1.binders ++ branch.2.bound := by
  induction branches with
  | nil => rfl
  | cons branch rest ih => rw [boundBranches, ih, List.flatMap_cons]

theorem boundFields_map_var {α : Type} (as : List α) (label name : α → String) :
    boundFields (as.map fun a => (label a, .var (name a))) = [] := by
  induction as with
  | nil => rfl
  | cons a rest ih => simpa using ih

theorem bound_apply (function : Expr) (arguments : List Expr) :
    (function.apply arguments).bound = function.bound ++ boundAll arguments := by
  fun_cases Expr.apply function arguments with
  | case1 => simp
  | case2 arguments hne function first =>
    simp [boundAll_eq_flatMap, List.flatMap_append]
  | case3 => rfl

theorem bound_call (name : String) (arguments : List Expr) :
    (Expr.call name arguments).bound = boundAll arguments := bound_apply _ _

theorem bound_through (head : Expr) (stages : List Expr) :
    (head.through stages).bound = head.bound ++ boundAll stages := by
  fun_cases Expr.through head stages with
  | case1 => simp
  | case2 => rfl

/-! ## New variables -/

/-- How variables begin: those for values, for arguments and for fields. -/
def stems : List String := ["value", "arg", "field"]

/-- How many variables with this beginning have been handed out. -/
def Names.used (names : Names) (stem : String) : Nat :=
  if stem = "value" then names.values
  else if stem = "arg" then names.arguments
  else if stem = "field" then names.fields
  else 0

/-- The variable has been handed out. -/
def Names.Issued (names : Names) (x : String) : Prop :=
  ∃ stem i, i < names.used stem ∧ x = stem ++ toString i

theorem Names.mem_stems {names : Names} {stem : String} (h : 0 < names.used stem) :
    stem ∈ stems := by
  grind [Names.used, stems]

/-- The first letters of variables are different for different stems. -/
theorem head_of_mem_stems : ∀ s ∈ stems, ∀ t ∈ stems, s.toList.head? = t.toList.head? → s = t := by
  decide

/-- A stem is not empty, so a variable begins like its stem. -/
theorem head_variable {stem : String} (h : stem ∈ stems) (i : Nat) :
    (stem ++ toString i).toList.head? = stem.toList.head? := by
  have hne : ∀ stem ∈ stems, stem.toList ≠ [] := by decide
  rw [String.toList_append, List.head?_append_of_ne_nil _ (hne stem h)]

/-- A variable has one stem and one number. -/
theorem variable_injective {s t : String} (hs : s ∈ stems) (ht : t ∈ stems) {i j : Nat}
    (h : s ++ toString i = t ++ toString j) : s = t ∧ i = j := by
  have hhead : s.toList.head? = t.toList.head? := by
    rw [← head_variable hs i, ← head_variable ht j, h]
  obtain rfl := head_of_mem_stems s hs t ht hhead
  rw [String.append_right_inj] at h
  exact ⟨rfl, Decimal.toString_injective h⟩

/-- The variables are different from each other, and all of them have been handed out. -/
structure Names.Covers (names : Names) (held : List String) : Prop where
  /-- No variable occurs twice. -/
  nodup : held.Nodup
  /-- All of them have been handed out. -/
  issued : ∀ x ∈ held, names.Issued x

/-- **A new variable is different from all that are in use.** -/
theorem Names.Covers.push {names next : Names} {held : List String} (h : names.Covers held)
    {stem : String} (hstem : stem ∈ stems)
    (hnext : ∀ s, next.used s = if s = stem then names.used s + 1 else names.used s) :
    next.Covers (held ++ [stem ++ toString (names.used stem)]) := by
  have hnew : ¬names.Issued (stem ++ toString (names.used stem)) := by
    rintro ⟨s, i, hlt, heq⟩
    obtain ⟨rfl, rfl⟩ := variable_injective hstem (names.mem_stems (Nat.zero_lt_of_lt hlt)) heq
    exact Nat.lt_irrefl _ hlt
  refine ⟨List.nodup_append.2 ⟨h.nodup, List.nodup_singleton _, ?_⟩, ?_⟩
  · intro x hx y hy hxy
    rw [List.mem_singleton] at hy
    exact hnew (hy ▸ hxy ▸ h.issued x hx)
  · intro x hx
    rw [List.mem_append, List.mem_singleton] at hx
    obtain hx | rfl := hx
    · obtain ⟨s, i, hlt, rfl⟩ := h.issued x hx
      refine ⟨s, i, ?_, rfl⟩
      rw [hnext]
      split <;> omega
    · refine ⟨stem, names.used stem, ?_, rfl⟩
      rw [hnext, if_pos rfl]
      exact Nat.lt_succ_self _

/-- What the generator adds to the variables in hand is new: if it starts with variables that are
different from each other, `held`, it ends with such variables, `bound result`. -/
def Draws {α : Type} (held : List String) (generator : StateM Names α) (bound : α → List String) :
    Prop :=
  ∀ names : Names, names.Covers held →
    (generator names).2.Covers (bound (generator names).1)

section

variable {α β : Type} {held : List String} {bound : α → List String}

theorem Draws.pure {a : α} (h : bound a = held) : Draws held (pure a) bound :=
  fun _ hcovers => h ▸ hcovers

theorem Draws.bind {generator : StateM Names α} {next : α → StateM Names β}
    {bound' : β → List String} (h : Draws held generator bound)
    (hnext : ∀ a, Draws (bound a) (next a) bound') : Draws held (generator >>= next) bound' :=
  fun names hcovers => hnext _ (generator names).2 (h names hcovers)

theorem Draws.mapM {γ : Type} {f : γ → StateM Names α} {as : List γ}
    (h : ∀ a ∈ as, ∀ held, Draws held (f a) fun result => held ++ bound result) :
    Draws held (as.mapM f) fun results => held ++ results.flatMap bound := by
  induction as generalizing held with
  | nil => exact .pure (by simp)
  | cons a as ih =>
    obtain ⟨ha, has⟩ := List.forall_mem_cons.1 h
    rw [List.mapM_cons]
    refine (ha held).bind fun b => (ih has).bind fun bs => .pure ?_
    rw [List.flatMap_cons, List.append_assoc]

theorem freshValue_draws (held : List String) :
    Draws held freshValue fun value => held ++ [value] :=
  fun _ hcovers => hcovers.push (by simp [stems]) fun s => by grind [Names.used, freshValue]

theorem freshArgument_draws (held : List String) :
    Draws held freshArgument fun argument => held ++ [argument] :=
  fun _ hcovers => hcovers.push (by simp [stems]) fun s => by grind [Names.used, freshArgument]

theorem freshField_draws (held : List String) :
    Draws held freshField fun field => held ++ [field] :=
  fun _ hcovers => hcovers.push (by simp [stems]) fun s => by grind [Names.used, freshField]

end

/-! ## Encoders -/

/-- Encoders for the type bind new variables: functions as well as expressions for the JSON of some
subject that binds none. -/
def EncodesApart (type : Ty) : Prop :=
  ∀ held, Draws held (encoder type) (fun e => held ++ e.bound) ∧
    ∀ subject : Expr, subject.bound = [] →
      Draws held (encodeOf subject type) fun e => held ++ e.bound

/-- The same for the fields of some subject. -/
def FieldsEncodeApart (fields : List (String × Ty)) : Prop :=
  ∀ held, ∀ subject : Expr, subject.bound = [] →
    Draws held (encodeFields subject fields) fun pairs => held ++ boundAll pairs

/-- Unless the subject is a record, its JSON is the encoder applied to it. -/
theorem encodesApart_of_encoder {type : Ty} (hrecord : ∀ fields, type ≠ .record fields)
    (h : ∀ held, Draws held (encoder type) fun e => held ++ e.bound) : EncodesApart type := by
  refine fun held => ⟨h held, fun subject hsubject => ?_⟩
  have heq : encodeOf subject type = encoder type >>= fun e => pure (e.apply [subject]) := by
    cases type with
    | record fields => exact absurd rfl (hrecord fields)
    | _ => rw [encodeOf]; simp
  rw [heq]
  exact (h held).bind fun e => .pure (by simp [bound_apply, hsubject])

theorem encodesApart_record {fields : List (String × Ty)} (h : FieldsEncodeApart fields) :
    EncodesApart (.record fields) := by
  refine fun held => ⟨?_, fun subject hsubject => ?_⟩
  · rw [encoder]
    refine (freshValue_draws held).bind fun value => ?_
    refine (h _ (.var value) (by simp)).bind fun pairs => .pure ?_
    simp [bound_call, bindersAll, Pattern.binders]
  · rw [encodeOf]
    exact (h held subject hsubject).bind fun pairs => .pure (by simp [bound_call])

mutual

theorem encodesApart : ∀ type : Ty, EncodesApart type
  | .unit | .bool | .int | .float | .char | .string | .named _ =>
    encodesApart_of_encoder (by simp) fun held => by
      rw [encoder]
      exact .pure (by simp)
  | .list item | .maybe item => encodesApart_of_encoder (by simp) fun held => by
    rw [encoder]
    exact (encodesApart item held).1.bind fun e => .pure (by simp [bound_call])
  | .pair first second | .result first second => encodesApart_of_encoder (by simp) fun held => by
    rw [encoder]
    refine (encodesApart first held).1.bind fun e => ?_
    exact (encodesApart second _).1.bind fun e' => .pure (by simp [bound_call])
  | .triple first second third => encodesApart_of_encoder (by simp) fun held => by
    rw [encoder]
    refine (encodesApart first held).1.bind fun e => ?_
    refine (encodesApart second _).1.bind fun e' => ?_
    exact (encodesApart third _).1.bind fun e'' => .pure (by simp [bound_call])
  | .record fields => encodesApart_record (fieldsEncodeApart fields)

theorem fieldsEncodeApart : ∀ fields : List (String × Ty), FieldsEncodeApart fields
  | [], _, _, _ => by
    rw [encodeFields]
    exact .pure (by simp)
  | (name, type) :: rest, held, subject, hsubject => by
    rw [encodeFields]
    refine ((encodesApart type held).2 (.access subject name) (by simpa using hsubject)).bind
      fun e => ?_
    exact (fieldsEncodeApart rest _ subject hsubject).bind fun pairs => .pure (by simp)

end

theorem encodeCtor_draws (held : List String) (ctor : Ctor) :
    Draws held (encodeCtor ctor) fun branch => held ++ (branch.1.binders ++ branch.2.bound) := by
  rw [encodeCtor]
  refine (Draws.mapM fun _ _ held => freshArgument_draws held).bind fun arguments => ?_
  refine (Draws.mapM fun place _ held =>
    (encodesApart place.1 held).2 (.var place.2) (by simp)).bind fun encoded => .pure ?_
  rw [Pattern.binders, bindersAll_map_var, bound_call]
  simp [boundAll_eq_flatMap]

theorem encodeCtors_draws (held : List String) (ctors : List Ctor) :
    Draws held (encodeCtors ctors) fun e => held ++ e.bound := by
  rw [encodeCtors]
  refine (freshValue_draws held).bind fun value => ?_
  refine (Draws.mapM fun ctor _ held => encodeCtor_draws held ctor).bind fun branches => .pure ?_
  simp [boundBranches_eq_flatMap, bindersAll, Pattern.binders]

/-! ## Decoders -/

theorem recordBuilder_draws (held : List String) (alias? : Option String)
    (fields : List (String × Ty)) :
    Draws held (recordBuilder alias? fields) fun e => held ++ e.bound := by
  fun_cases recordBuilder alias? fields with
  | case1 => exact .pure (by simp)
  | case2 => exact .pure (by simp)
  | case3 =>
    refine (Draws.mapM fun _ _ held => freshField_draws held).bind fun params => .pure ?_
    simp [bindersAll_map_var, boundFields_map_var]

theorem recordDecoder_draws (held : List String) (alias? : Option String)
    {fields : List (String × Ty)}
    (hfields : ∀ held, Draws held (fieldDecoders fields) fun stages => held ++ boundAll stages) :
    Draws held (do
      let builder ← recordBuilder alias? fields
      return (Expr.call "Json.Decode.succeed" [builder]).through (← fieldDecoders fields))
      fun e => held ++ e.bound := by
  refine (recordBuilder_draws held alias? fields).bind fun builder => ?_
  exact (hfields _).bind fun stages => .pure (by simp [bound_through, bound_call])

mutual

theorem decoder_draws (held : List String) : ∀ type : Ty,
    Draws held (decoder type) fun e => held ++ e.bound
  | .unit | .bool | .int | .float | .char | .string => by
    rw [decoder]
    exact .pure (by simp)
  | .named _ => by
    rw [decoder]
    exact .pure (by simp [bound_call, bindersAll, Pattern.binders])
  | .list item | .maybe item => by
    rw [decoder]
    exact (decoder_draws held item).bind fun e => .pure (by simp [bound_call])
  | .pair first second | .result first second => by
    rw [decoder]
    refine (decoder_draws held first).bind fun e => ?_
    exact (decoder_draws _ second).bind fun e' => .pure (by simp [bound_call])
  | .triple first second third => by
    rw [decoder]
    refine (decoder_draws held first).bind fun e => ?_
    refine (decoder_draws _ second).bind fun e' => ?_
    exact (decoder_draws _ third).bind fun e'' => .pure (by simp [bound_call])
  | .record fields => by
    rw [decoder]
    exact recordDecoder_draws held none fun held => fieldDecoders_draws held fields

theorem fieldDecoders_draws (held : List String) : ∀ fields : List (String × Ty),
    Draws held (fieldDecoders fields) fun stages => held ++ boundAll stages
  | [] => by
    rw [fieldDecoders]
    exact .pure (by simp)
  | (name, type) :: rest => by
    rw [fieldDecoders]
    refine (decoder_draws held type).bind fun e => ?_
    exact (fieldDecoders_draws _ rest).bind fun stages => .pure (by simp [bound_call])

end

theorem decodeAlias_draws (held : List String) (name : String) (type : Ty) :
    Draws held (decodeAlias name type) fun e => held ++ e.bound := by
  fun_cases decodeAlias name type with
  | case1 fields =>
    exact recordDecoder_draws held (some name) fun held => fieldDecoders_draws held fields
  | case2 => exact decoder_draws held type

theorem argumentDecoders_draws (held : List String) (i : Nat) (types : List Ty) :
    Draws held (argumentDecoders i types) fun arguments => held ++ boundAll arguments := by
  induction types generalizing held i with
  | nil => exact .pure (by simp)
  | cons type rest ih =>
    rw [argumentDecoders]
    refine (decoder_draws held type).bind fun e => ?_
    exact (ih _ (i + 1)).bind fun arguments => .pure (by simp [bound_call])

/-- Whatever combines the decoders of arguments, it binds nothing. -/
theorem bound_combine (name : String) (arguments : List Expr) :
    (combine name arguments).bound = boundAll arguments := by
  fun_cases combine name arguments with
  | case1 ctor hlength =>
    rw [List.eq_nil_of_length_eq_zero hlength]
    rfl
  | case2 | case3 => simp +zetaDelta [bound_apply, bound_call]
  | case4 => simp +zetaDelta [bound_through, bound_call, boundAll_eq_flatMap, List.flatMap_map]

theorem decodeCtors_draws (held : List String) (ctors : List Ctor) :
    Draws held (decodeCtors ctors) fun e => held ++ e.bound := by
  have hctor : ∀ ctor ∈ ctors, ∀ held,
      Draws held (decodeCtor ctor) fun e => held ++ e.bound := by
    intro ctor _ held
    rw [decodeCtor]
    refine (argumentDecoders_draws held 0 ctor.arguments).bind fun arguments => .pure ?_
    simp [bound_call, bound_combine]
  rw [decodeCtors]
  exact (Draws.mapM hctor).bind fun variants => .pure (by simp [bound_call, boundAll_eq_flatMap])

/-! ## Definitions -/

theorem Names.Issued.isLocal {names : Names} {x : String} (h : names.Issued x) : IsLocal x := by
  obtain ⟨stem, i, hlt, rfl⟩ := h
  exact ⟨stem, names.mem_stems (Nat.zero_lt_of_lt hlt), i, rfl⟩

/-- No function of the libraries or the toolkit begins like a variable. -/
theorem IsLocal.notMem_basis {x : String} (h : IsLocal x) :
    x ∉ libraryFunctions ++ Toolkit.all := by
  have hheads : ∀ name ∈ libraryFunctions ++ Toolkit.all,
      name.toList.head? ∉ [some 'v', some 'a', some 'f'] := by decide
  exact fun hmem => hheads x hmem h.head

theorem IsLocal.ne_encoderName {x : String} (h : IsLocal x) (name : String) :
    x ≠ encoderName name := by
  rintro rfl
  exact absurd h.head (by rw [head_encoderName]; decide)

theorem IsLocal.ne_decoderName {x : String} (h : IsLocal x) (name : String) :
    x ≠ decoderName name := by
  rintro rfl
  exact absurd h.head (by rw [head_decoderName]; decide)

/-- A generator that starts with no variables binds new ones only. -/
theorem Draws.hygienic {generator : StateM Names Expr}
    (h : Draws [] generator fun e => [] ++ e.bound) :
    (generator Names.none).1.bound.Nodup ∧ ∀ x ∈ (generator Names.none).1.bound, IsLocal x := by
  have hcovers := h Names.none ⟨List.nodup_nil, List.forall_mem_nil _⟩
  exact ⟨hcovers.nodup, fun x hx => (hcovers.issued x hx).isLocal⟩

theorem encoderBody_bound (d : TypeDef) :
    (encoderBody d).bound.Nodup ∧ ∀ x ∈ (encoderBody d).bound, IsLocal x := by
  cases d with
  | «alias» name type => exact (encodesApart type []).1.hygienic
  | custom name ctors => exact (encodeCtors_draws [] ctors).hygienic

theorem decoderBody_bound (d : TypeDef) :
    (decoderBody d).bound.Nodup ∧ ∀ x ∈ (decoderBody d).bound, IsLocal x := by
  cases d with
  | «alias» name type => exact (decodeAlias_draws [] name type).hygienic
  | custom name ctors => exact (decodeCtors_draws [] ctors).hygienic

/-- An encoder leaves no variable to its module. -/
theorem scoped_encoderBody (d : TypeDef) : (encoderBody d).Scoped := by
  have hbasis : Basis fun x => ¬IsLocal x := fun _ hname h => h.notMem_basis hname
  have hfree : (encoderBody d).FreeIn fun x => ¬IsLocal x :=
    freeIn_encoderBody hbasis d fun name _ h => h.ne_encoderName name rfl
  exact Expr.scoped_iff.2 fun x hx hmem => hfree x hmem ((encoderBody_bound d).2 x hx)

/-- What a decoder leaves to its module and a variable could be is a constructor. -/
theorem mem_constructors_of_mem_free {d : TypeDef} {x : String} (hx : IsLocal x)
    (hfree : x ∈ (decoderBody d).free) : x ∈ d.constructors := by
  have hbasis : Basis fun x => IsLocal x → x ∈ d.constructors :=
    fun _ hname h => absurd hname h.notMem_basis
  have h : (decoderBody d).FreeIn fun x => IsLocal x → x ∈ d.constructors :=
    freeIn_decoderBody hbasis d (fun _ hctor _ => hctor)
      fun name _ h => absurd rfl (h.ne_decoderName name)
  exact h x hfree hx

/-! ### Decoders use their constructors -/

theorem freeAll_eq_flatMap (es : List Expr) : freeAll es = es.flatMap Expr.free := by
  induction es with
  | nil => rfl
  | cons e rest ih => rw [freeAll, ih, List.flatMap_cons]

theorem free_apply (function : Expr) (arguments : List Expr) :
    (function.apply arguments).free = function.free ++ freeAll arguments := by
  fun_cases Expr.apply function arguments with
  | case1 => simp
  | case2 => simp [freeAll_eq_flatMap]
  | case3 => rfl

theorem free_call (name : String) (arguments : List Expr) :
    (Expr.call name arguments).free = name :: freeAll arguments := free_apply _ _

theorem free_through (head : Expr) (stages : List Expr) :
    (head.through stages).free = head.free ++ freeAll stages := by
  fun_cases Expr.through head stages with
  | case1 => simp
  | case2 => rfl

/-- Whatever combines the decoders of its arguments, it is handed the constructor. -/
theorem mem_free_combine (name : String) (arguments : List Expr) :
    name ∈ (combine name arguments).free := by
  fun_cases combine name arguments with
  | case1 => simp +zetaDelta [free_call]
  | case2 | case3 => simp +zetaDelta [free_apply, free_call]
  | case4 => simp +zetaDelta [free_through, free_call]

theorem Always.mapM_exists {α β : Type} {f : α → StateM Names β} {R : α → β → Prop} {as : List α}
    (h : ∀ a ∈ as, Always (f a) (R a)) :
    Always (as.mapM f) fun results => ∀ a ∈ as, ∃ r ∈ results, R a r := by
  induction as with
  | nil => exact .pure (List.forall_mem_nil _)
  | cons a as ih =>
    obtain ⟨ha, has⟩ := List.forall_mem_cons.1 h
    rw [List.mapM_cons]
    refine ha.bind fun b hb => (ih has).bind fun bs hbs => .pure (List.forall_mem_cons.2 ⟨?_, ?_⟩)
    · exact ⟨b, List.mem_cons_self, hb⟩
    · intro a' ha'
      obtain ⟨r, hr, hR⟩ := hbs a' ha'
      exact ⟨r, List.mem_cons_of_mem b hr, hR⟩

/-- A decoder uses all constructors of its definition, except for that of an empty record. -/
theorem mem_free_decoderBody {d : TypeDef} {ctor : String} (h : ctor ∈ d.constructors) :
    ctor ∈ (decoderBody d).free ∨ (decoderBody d).bound = [] := by
  cases d with
  | «alias» name type =>
    cases type with
    | record fields =>
      obtain rfl : ctor = name := by simpa [TypeDef.constructors] using h
      cases fields with
      | nil => exact .inr rfl
      | cons field rest =>
        have hdecoder : Always (decodeAlias ctor (.record (field :: rest))) (ctor ∈ ·.free) := by
          rw [decodeAlias]
          refine Always.bind (Q := (ctor ∈ ·.free)) (.pure (by simp)) fun builder hbuilder => ?_
          refine Always.bind (Q := fun _ => True) (.of_forall fun _ => trivial) fun stages _ => ?_
          exact .pure (by simp [free_through, free_call, hbuilder])
        exact .inl (hdecoder Names.none)
    | _ => simp [TypeDef.constructors] at h
  | custom name ctors =>
    obtain ⟨c, hc, rfl⟩ := List.mem_map.1 h
    have hdecodeCtor : ∀ c ∈ ctors, Always (decodeCtor c) (c.name ∈ ·.free) := by
      intro c _
      rw [decodeCtor]
      refine Always.bind (Q := fun _ => True) (.of_forall fun _ => trivial) fun arguments _ => ?_
      exact .pure (by simp [free_call, mem_free_combine])
    have hdecoder : Always (decodeCtors ctors) (c.name ∈ ·.free) := by
      rw [decodeCtors]
      refine (Always.mapM_exists hdecodeCtor).bind fun variants hvariants => .pure ?_
      obtain ⟨variant, hvariant, hfree⟩ := hvariants c hc
      rw [free_call, freeAll, Expr.free, freeAll_eq_flatMap]
      refine List.mem_cons_of_mem _ (List.mem_append_left _ ?_)
      exact List.mem_flatMap.2 ⟨variant, hvariant, hfree⟩
    exact .inl (hdecoder Names.none)

/-! ### The result -/

/-- **Generated codecs are hygienic.**  The variables of the encoder and of the decoder of a
definition are different from each other and from all functions that the module defines, and those
of the encoder are used in their scope only.  A decoder also uses the constructors of the
definition: it is hygienic if none of them is spelled like one of its variables. -/
theorem codecs_hygienic (d : TypeDef) :
    (∀ body ∈ [encoderBody d, decoderBody d], body.bound.Nodup ∧
      ∀ x ∈ body.bound, x ∉ Toolkit.all ∧ ∀ name, x ≠ encoderName name ∧ x ≠ decoderName name) ∧
    (encoderBody d).Scoped ∧
    ((decoderBody d).Scoped ↔ ∀ ctor ∈ d.constructors, ctor ∉ (decoderBody d).bound) := by
  have hlocal : ∀ x, IsLocal x →
      x ∉ Toolkit.all ∧ ∀ name, x ≠ encoderName name ∧ x ≠ decoderName name := fun x hx =>
    ⟨fun hmem => hx.notMem_basis (List.mem_append_right _ hmem),
      fun name => ⟨hx.ne_encoderName name, hx.ne_decoderName name⟩⟩
  refine ⟨?_, scoped_encoderBody d, ?_⟩
  · obtain ⟨hencoder, hnew⟩ := encoderBody_bound d
    obtain ⟨hdecoder, hnew'⟩ := decoderBody_bound d
    rw [List.forall_mem_cons, List.forall_mem_singleton]
    exact ⟨⟨hencoder, fun x hx => hlocal x (hnew x hx)⟩,
      hdecoder, fun x hx => hlocal x (hnew' x hx)⟩
  · rw [Expr.scoped_iff]
    constructor
    · intro h ctor hctor hbound
      obtain hfree | hnone := mem_free_decoderBody hctor
      · exact h ctor hbound hfree
      · exact absurd (hnone ▸ hbound) List.not_mem_nil
    · intro h x hbound hfree
      exact h x (mem_constructors_of_mem_free ((decoderBody_bound d).2 x hbound) hfree) hbound

/-- A record with lists of records inside each other. -/
def boardDef : TypeDef :=
  .alias "Board" (.record
    [("rows", .list (.record [("cells", .list (.record [("x", .int), ("y", .int)]))]))])

theorem codecs_hygienic_board :
    (encoderBody boardDef).bound = ["value0", "value1", "value2"] ∧
    (decoderBody boardDef).bound = ["field0", "field1", "field2"] ∧
    (decoderBody boardDef).Scoped := by
  have hencoder : (encoderBody boardDef).bound = ["value0", "value1", "value2"] := by
    simp only [boardDef, encoderBody, encoder, encodeFields, encodeOf]
    rfl
  exact ⟨hencoder, by decide, (codecs_hygienic boardDef).2.2.2 (by decide)⟩

/-- A constructor that is spelled like a variable is used out of the scope of that variable. -/
theorem not_scoped_lower_constructor :
    ¬(decoderBody (.custom "Wrapper" [⟨"field0", [.record [("a", .int)]]⟩])).Scoped := by
  decide

end ElmWire.Elm
