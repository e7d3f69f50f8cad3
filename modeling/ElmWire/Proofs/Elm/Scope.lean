import ElmWire.Elm.Codec
import ElmWire.Proofs.Schema

/-!
# What generated code refers to

`Expr.free` are the free variables of an expression: the names that it leaves to the module around
it.  The bodies of generated encoders and decoders leave few (`freeIn_encoderBody`,
`freeIn_decoderBody`): functions of the JSON library, functions of the toolkit, the codecs of the
definitions that a definition refers to, and for a decoder the constructors of the definition
itself.

A generator hands out new variables as it goes, so that what it generates depends on those that are
in use.  `Always` is for what does not.
-/

set_option autoImplicit false
namespace ElmWire.Elm

/-! ## Free variables -/

mutual

/-- The variables that a pattern binds. -/
def Pattern.binders : Pattern → List String
  | .var name => [name]
  | .ctor _ arguments => bindersAll arguments
  | .wildcard => []

/-- The variables that several patterns bind. -/
def bindersAll : List Pattern → List String
  | [] => []
  | pattern :: rest => pattern.binders ++ bindersAll rest

end

mutual

/-- The variables that occur in an expression and that it does not bind. -/
@[simp] def Expr.free : Expr → List String
  | .var name => [name]
  | .string _ | .int _ => []
  | .app function arguments => function.free ++ freeAll arguments
  | .lambda params body => body.free.filter (· ∉ bindersAll params)
  | .list items | .tuple items => freeAll items
  | .record fields => freeFields fields
  | .access subject _ => subject.free
  | .case scrutinee branches => scrutinee.free ++ freeBranches branches
  | .pipe head stages => head.free ++ freeAll stages

/-- The free variables of several expressions. -/
@[simp] def freeAll : List Expr → List String
  | [] => []
  | e :: rest => e.free ++ freeAll rest

/-- The free variables of the fields of a record. -/
@[simp] def freeFields : List (String × Expr) → List String
  | [] => []
  | (_, e) :: rest => e.free ++ freeFields rest

/-- The free variables of the branches of a case expression. -/
@[simp] def freeBranches : List (Pattern × Expr) → List String
  | [] => []
  | (pattern, body) :: rest => body.free.filter (· ∉ pattern.binders) ++ freeBranches rest

end

theorem mem_bindersAll_map_var {x : String} {names : List String} :
    x ∈ bindersAll (names.map .var) ↔ x ∈ names := by
  induction names with
  | nil => rw [List.map_nil, bindersAll]
  | cons name rest ih =>
    rw [List.map_cons, bindersAll, Pattern.binders, List.singleton_append, List.mem_cons, ih,
      List.mem_cons]

/-- All free variables of the expression are allowed ones. -/
def Expr.FreeIn (allowed : String → Prop) (e : Expr) : Prop := ∀ x ∈ e.free, allowed x

section

variable {allowed : String → Prop}

theorem forall_mem_freeAll {es : List Expr} :
    (∀ x ∈ freeAll es, allowed x) ↔ ∀ e ∈ es, e.FreeIn allowed := by
  induction es with
  | nil => simp [freeAll]
  | cons e rest ih => rw [freeAll, List.forall_mem_append, ih, List.forall_mem_cons]; rfl

theorem forall_mem_freeFields {fields : List (String × Expr)} :
    (∀ x ∈ freeFields fields, allowed x) ↔ ∀ field ∈ fields, field.2.FreeIn allowed := by
  induction fields with
  | nil => simp [freeFields]
  | cons field rest ih => rw [freeFields, List.forall_mem_append, ih, List.forall_mem_cons]; rfl

theorem forall_mem_freeBranches {branches : List (Pattern × Expr)} :
    (∀ x ∈ freeBranches branches, allowed x) ↔
      ∀ branch ∈ branches, branch.2.FreeIn fun x => x ∈ branch.1.binders ∨ allowed x := by
  induction branches with
  | nil => simp [freeBranches]
  | cons branch rest ih =>
    rw [freeBranches, List.forall_mem_append, ih, List.forall_mem_cons]
    refine and_congr_left fun _ => ?_
    simp only [List.mem_filter, Expr.FreeIn, decide_eq_true_eq]
    grind

namespace Expr.FreeIn

theorem var {name : String} (h : allowed name) : (Expr.var name).FreeIn allowed := by
  intro x hx
  rw [Expr.free, List.mem_singleton] at hx
  exact hx ▸ h

theorem string (s : String) : (Expr.string s).FreeIn allowed := by
  simp [FreeIn]

theorem int (n : Int) : (Expr.int n).FreeIn allowed := by
  simp [FreeIn]

theorem app {function : Expr} {arguments : List Expr} (hf : function.FreeIn allowed)
    (ha : ∀ e ∈ arguments, e.FreeIn allowed) : (Expr.app function arguments).FreeIn allowed := by
  rw [FreeIn, Expr.free, List.forall_mem_append]
  exact ⟨hf, forall_mem_freeAll.2 ha⟩

/-- The body of a function may use its parameters as well. -/
theorem lambda {params : List Pattern} {body : Expr}
    (h : body.FreeIn fun x => x ∈ bindersAll params ∨ allowed x) :
    (Expr.lambda params body).FreeIn allowed := by
  intro x hx
  rw [Expr.free, List.mem_filter, decide_eq_true_eq] at hx
  exact (h x hx.1).resolve_left hx.2

theorem list {items : List Expr} (h : ∀ e ∈ items, e.FreeIn allowed) :
    (Expr.list items).FreeIn allowed := by
  rw [FreeIn, Expr.free]
  exact forall_mem_freeAll.2 h

theorem tuple {items : List Expr} (h : ∀ e ∈ items, e.FreeIn allowed) :
    (Expr.tuple items).FreeIn allowed := by
  rw [FreeIn, Expr.free]
  exact forall_mem_freeAll.2 h

theorem record {fields : List (String × Expr)} (h : ∀ field ∈ fields, field.2.FreeIn allowed) :
    (Expr.record fields).FreeIn allowed := by
  rw [FreeIn, Expr.free]
  exact forall_mem_freeFields.2 h

theorem access {subject : Expr} (h : subject.FreeIn allowed) (field : String) :
    (Expr.access subject field).FreeIn allowed := by
  rw [FreeIn, Expr.free]
  exact h

/-- The body of a branch may use what its pattern binds as well. -/
theorem case {scrutinee : Expr} {branches : List (Pattern × Expr)} (hs : scrutinee.FreeIn allowed)
    (hb : ∀ branch ∈ branches, branch.2.FreeIn fun x => x ∈ branch.1.binders ∨ allowed x) :
    (Expr.case scrutinee branches).FreeIn allowed := by
  rw [FreeIn, Expr.free, List.forall_mem_append]
  exact ⟨hs, forall_mem_freeBranches.2 hb⟩

theorem pipe {head : Expr} {stages : List Expr} (hh : head.FreeIn allowed)
    (hs : ∀ e ∈ stages, e.FreeIn allowed) : (Expr.pipe head stages).FreeIn allowed := by
  rw [FreeIn, Expr.free, List.forall_mem_append]
  exact ⟨hh, forall_mem_freeAll.2 hs⟩

theorem apply {function : Expr} {arguments : List Expr} (hf : function.FreeIn allowed)
    (ha : ∀ e ∈ arguments, e.FreeIn allowed) : (function.apply arguments).FreeIn allowed := by
  fun_cases Expr.apply function arguments with
  | case1 => exact hf
  | case2 arguments hne function first =>
    rw [FreeIn, Expr.free, List.forall_mem_append] at hf
    refine app hf.1 (List.forall_mem_append.2 ⟨forall_mem_freeAll.1 hf.2, ha⟩)
  | case3 arguments hne function hnot => exact app hf ha

theorem call {name : String} {arguments : List Expr} (h : allowed name)
    (ha : ∀ e ∈ arguments, e.FreeIn allowed) : (Expr.call name arguments).FreeIn allowed :=
  apply (var h) ha

theorem through {head : Expr} {stages : List Expr} (hh : head.FreeIn allowed)
    (hs : ∀ e ∈ stages, e.FreeIn allowed) : (head.through stages).FreeIn allowed := by
  fun_cases Expr.through head stages with
  | case1 => exact hh
  | case2 => exact pipe hh hs

end Expr.FreeIn
end

/-! ## Generators -/

/-- Whatever variables are in use, the result has the property. -/
def Always {α : Type} (generator : StateM Names α) (Q : α → Prop) : Prop :=
  ∀ names, Q (generator names).1

section

variable {α β : Type} {Q : α → Prop} {R : β → Prop}

theorem Always.pure {a : α} (h : Q a) : Always (pure a) Q := fun _ => h

theorem Always.bind {generator : StateM Names α} {next : α → StateM Names β}
    (h : Always generator Q) (hnext : ∀ a, Q a → Always (next a) R) :
    Always (generator >>= next) R :=
  fun names => hnext _ (h names) (generator names).2

theorem Always.of_forall {generator : StateM Names α} (h : ∀ a, Q a) : Always generator Q :=
  fun _ => h _

theorem Always.mapM {γ : Type} {f : γ → StateM Names α} {as : List γ}
    (h : ∀ a ∈ as, Always (f a) Q) : Always (as.mapM f) fun results => ∀ r ∈ results, Q r := by
  induction as with
  | nil => exact .pure (List.forall_mem_nil _)
  | cons a as ih =>
    obtain ⟨ha, has⟩ := List.forall_mem_cons.1 h
    rw [List.mapM_cons]
    exact ha.bind fun b hb => (ih has).bind fun bs hbs => .pure (List.forall_mem_cons.2 ⟨hb, hbs⟩)

end

/-- The name that a declaration defines. -/
def Decl.name : Decl → String
  | .value name _ _ | .alias name _ | .custom name _ => name

/-! ## Encoders -/

/-- The functions of the JSON library that generated code calls. -/
def libraryFunctions : List String := [
  "Json.Encode.bool", "Json.Encode.int", "Json.Encode.float", "Json.Encode.string",
  "Json.Encode.list",
  "Json.Decode.bool", "Json.Decode.int", "Json.Decode.float", "Json.Decode.string",
  "Json.Decode.list", "Json.Decode.lazy", "Json.Decode.succeed", "Json.Decode.map",
  "Json.Decode.map2", "Json.Decode.map3", "Json.Decode.map4", "Json.Decode.map5",
  "Json.Decode.map6", "Json.Decode.map7", "Json.Decode.map8"]

/-- The functions of the library and of the toolkit are allowed. -/
def Basis (allowed : String → Prop) : Prop := ∀ name ∈ libraryFunctions ++ Toolkit.all, allowed name

theorem Basis.or {allowed : String → Prop} (h : Basis allowed) (more : String → Prop) :
    Basis fun x => more x ∨ allowed x := fun name hname => .inr (h name hname)

/-- Encoders for the type refer to what is allowed, if its references are: functions as well as
expressions for the JSON of some subject. -/
def EncodesWithin (type : Ty) : Prop :=
  ∀ allowed : String → Prop, Basis allowed →
    (∀ name ∈ type.references, allowed (encoderName name)) →
    Always (encoder type) (Expr.FreeIn allowed) ∧
      ∀ subject : Expr, subject.FreeIn allowed →
        Always (encodeOf subject type) (Expr.FreeIn allowed)

/-- The same for the fields of some subject. -/
def FieldsEncodeWithin (fields : List (String × Ty)) : Prop :=
  ∀ allowed : String → Prop, Basis allowed →
    (∀ name ∈ fieldReferences fields, allowed (encoderName name)) →
    ∀ subject : Expr, subject.FreeIn allowed →
      Always (encodeFields subject fields) fun pairs => ∀ e ∈ pairs, e.FreeIn allowed

/-- Unless the subject is a record, its JSON is the encoder applied to it. -/
theorem encodesWithin_of_encoder {type : Ty} (hrecord : ∀ fields, type ≠ .record fields)
    (h : ∀ allowed : String → Prop, Basis allowed →
      (∀ name ∈ type.references, allowed (encoderName name)) →
      Always (encoder type) (Expr.FreeIn allowed)) : EncodesWithin type := by
  intro allowed hbasis hreferences
  refine ⟨h allowed hbasis hreferences, fun subject hsubject => ?_⟩
  have heq : encodeOf subject type = encoder type >>= fun e => pure (e.apply [subject]) := by
    cases type with
    | record fields => exact absurd rfl (hrecord fields)
    | _ => rw [encodeOf]; simp
  rw [heq]
  refine (h allowed hbasis hreferences).bind fun e he => .pure (he.apply ?_)
  exact List.forall_mem_singleton.2 hsubject

theorem encodesWithin_record {fields : List (String × Ty)} (h : FieldsEncodeWithin fields) :
    EncodesWithin (.record fields) := by
  have hrecord : ∀ {allowed : String → Prop} {pairs : List Expr}, Basis allowed →
      (∀ e ∈ pairs, e.FreeIn allowed) →
      (Expr.call Toolkit.encodeRecord [.list pairs]).FreeIn allowed := by
    intro allowed pairs hbasis hpairs
    refine .call (hbasis _ (by simp [libraryFunctions, Toolkit.all])) ?_
    exact List.forall_mem_singleton.2 (.list hpairs)
  intro allowed hbasis hreferences
  rw [Ty.references] at hreferences
  constructor
  · -- The variable of the function is allowed in its body.
    rw [encoder]
    refine Always.bind (Q := fun _ => True) (.of_forall fun _ => trivial) fun value _ => ?_
    have hbasis' : Basis fun x => x ∈ bindersAll [.var value] ∨ allowed x := hbasis.or _
    have hvalue : (Expr.var value).FreeIn fun x => x ∈ bindersAll [.var value] ∨ allowed x :=
      .var (.inl (by simp [bindersAll, Pattern.binders]))
    exact (h _ hbasis' (fun name hname => .inr (hreferences name hname)) _ hvalue).bind
      fun pairs hpairs => .pure (.lambda (hrecord hbasis' hpairs))
  · intro subject hsubject
    rw [encodeOf]
    exact (h allowed hbasis hreferences subject hsubject).bind
      fun pairs hpairs => .pure (hrecord hbasis hpairs)

mutual

theorem encodesWithin : ∀ type : Ty, EncodesWithin type
  | .unit | .bool | .int | .float | .char | .string =>
    encodesWithin_of_encoder (by simp) fun _ hbasis _ => by
      rw [encoder]
      exact .pure (.var (hbasis _ (by simp [libraryFunctions, Toolkit.all])))
  | .named name => encodesWithin_of_encoder (by simp) fun _ _ hreferences => by
    rw [encoder]
    exact .pure (.var (hreferences name (by simp [Ty.references])))
  | .list item | .maybe item => encodesWithin_of_encoder (by simp) fun _ hbasis hreferences => by
    rw [Ty.references] at hreferences
    rw [encoder]
    refine (encodesWithin item _ hbasis hreferences).1.bind fun e he => .pure (.call ?_ ?_)
    · exact hbasis _ (by simp [libraryFunctions, Toolkit.all])
    · exact List.forall_mem_singleton.2 he
  | .pair first second | .result first second =>
    encodesWithin_of_encoder (by simp) fun _ hbasis hreferences => by
      rw [Ty.references, List.forall_mem_append] at hreferences
      rw [encoder]
      refine (encodesWithin first _ hbasis hreferences.1).1.bind fun e he => ?_
      refine (encodesWithin second _ hbasis hreferences.2).1.bind fun e' he' => .pure (.call ?_ ?_)
      · exact hbasis _ (by simp [libraryFunctions, Toolkit.all])
      · exact List.forall_mem_cons.2 ⟨he, List.forall_mem_singleton.2 he'⟩
  | .triple first second third => encodesWithin_of_encoder (by simp) fun _ hbasis hreferences => by
    rw [Ty.references, List.forall_mem_append, List.forall_mem_append] at hreferences
    rw [encoder]
    refine (encodesWithin first _ hbasis hreferences.1.1).1.bind fun e he => ?_
    refine (encodesWithin second _ hbasis hreferences.1.2).1.bind fun e' he' => ?_
    refine (encodesWithin third _ hbasis hreferences.2).1.bind fun e'' he'' => .pure (.call ?_ ?_)
    · exact hbasis _ (by simp [libraryFunctions, Toolkit.all])
    · exact List.forall_mem_cons.2
        ⟨he, List.forall_mem_cons.2 ⟨he', List.forall_mem_singleton.2 he''⟩⟩
  | .record fields => encodesWithin_record (fieldsEncodeWithin fields)

theorem fieldsEncodeWithin : ∀ fields : List (String × Ty), FieldsEncodeWithin fields
  | [], _, _, _, _, _ => by
    rw [encodeFields]
    exact .pure (List.forall_mem_nil _)
  | (name, type) :: rest, _, hbasis, hreferences, subject, hsubject => by
    rw [fieldReferences, List.forall_mem_append] at hreferences
    rw [encodeFields]
    refine ((encodesWithin type _ hbasis hreferences.1).2 _ (hsubject.access name)).bind
      fun e he => ?_
    refine (fieldsEncodeWithin rest _ hbasis hreferences.2 subject hsubject).bind
      fun pairs hpairs => .pure (List.forall_mem_cons.2 ⟨.tuple ?_, hpairs⟩)
    exact List.forall_mem_cons.2 ⟨.string name, List.forall_mem_singleton.2 he⟩

end

/-- The branch of a constructor may use the variables of its pattern as well. -/
theorem encodeCtor_freeIn {allowed : String → Prop} (hbasis : Basis allowed) {ctor : Ctor}
    (hreferences : ∀ type ∈ ctor.arguments, ∀ name ∈ type.references, allowed (encoderName name)) :
    Always (encodeCtor ctor) fun branch =>
      branch.2.FreeIn fun x => x ∈ branch.1.binders ∨ allowed x := by
  rw [encodeCtor]
  refine Always.bind (Q := fun _ => True) (.of_forall fun _ => trivial) fun arguments _ => ?_
  have hbasis' : Basis fun x => x ∈ arguments ∨ allowed x := hbasis.or _
  have hencoded : ∀ place ∈ ctor.arguments.zip arguments,
      Always (encodeOf (.var place.2) place.1)
        (Expr.FreeIn fun x => x ∈ arguments ∨ allowed x) := by
    intro place hplace
    obtain ⟨htype, hargument⟩ := List.of_mem_zip hplace
    exact (encodesWithin place.1 _ hbasis' fun name hname =>
      .inr (hreferences place.1 htype name hname)).2 _ (.var (.inl hargument))
  refine (Always.mapM hencoded).bind fun encoded hall => .pure ?_
  have hbinders : ∀ x, x ∈ (Pattern.ctor ctor.name (arguments.map .var)).binders ↔ x ∈ arguments :=
    fun x => by rw [Pattern.binders, mem_bindersAll_map_var]
  simp only [hbinders]
  refine .call (hbasis' _ (by simp [libraryFunctions, Toolkit.all])) ?_
  exact List.forall_mem_cons.2 ⟨.string ctor.name, List.forall_mem_singleton.2 (.list hall)⟩

/-- **What encoders refer to.** -/
theorem freeIn_encoderBody {allowed : String → Prop} (hbasis : Basis allowed) (d : TypeDef)
    (hreferences : ∀ name ∈ d.references, allowed (encoderName name)) :
    (encoderBody d).FreeIn allowed := by
  cases d with
  | «alias» name type => exact (encodesWithin type allowed hbasis hreferences).1 Names.none
  | custom name ctors =>
    have hctors : Always (encodeCtors ctors) (Expr.FreeIn allowed) := by
      rw [encodeCtors]
      refine Always.bind (Q := fun _ => True) (.of_forall fun _ => trivial) fun value _ => ?_
      have hbasis' : Basis fun x => x ∈ bindersAll [.var value] ∨ allowed x := hbasis.or _
      refine (Always.mapM fun ctor hctor => encodeCtor_freeIn hbasis' ?_).bind
        fun branches hbranches => .pure (.lambda (.case ?_ hbranches))
      · intro type htype reference hreference
        exact .inr (hreferences reference
          (references_subset_of_mem_arguments hctor htype name hreference))
      · exact .var (.inl (by simp [bindersAll, Pattern.binders]))
    exact hctors Names.none

/-! ## Decoders -/

/-- A function that builds a record refers to its own parameters only. -/
theorem recordBuilder_freeIn {allowed : String → Prop} {alias? : Option String}
    (halias : ∀ name ∈ alias?, allowed name) (fields : List (String × Ty)) :
    Always (recordBuilder alias? fields) (Expr.FreeIn allowed) := by
  fun_cases recordBuilder alias? fields with
  | case1 => exact .pure (.record (List.forall_mem_nil _))
  | case2 fields name hne => exact .pure (.var (halias name rfl))
  | case3 fields hne =>
    refine Always.bind (Q := fun _ => True) (.of_forall fun _ => trivial) fun params _ => ?_
    refine .pure (.lambda (.record (List.forall_mem_map.2 fun place hplace => .var (.inl ?_))))
    exact mem_bindersAll_map_var.2 (List.of_mem_zip hplace).2

theorem recordDecoder_freeIn {allowed : String → Prop} (hbasis : Basis allowed)
    {alias? : Option String} (halias : ∀ name ∈ alias?, allowed name) {fields : List (String × Ty)}
    (hfields : Always (fieldDecoders fields) fun stages => ∀ e ∈ stages, e.FreeIn allowed) :
    Always (do
      let builder ← recordBuilder alias? fields
      return (Expr.call "Json.Decode.succeed" [builder]).through (← fieldDecoders fields))
      (Expr.FreeIn allowed) := by
  refine (recordBuilder_freeIn halias fields).bind fun builder hbuilder => ?_
  refine hfields.bind fun stages hstages => .pure (.through (.call ?_ ?_) hstages)
  · exact hbasis _ (by simp [libraryFunctions])
  · exact List.forall_mem_singleton.2 hbuilder

mutual

theorem decoder_freeIn {allowed : String → Prop} (hbasis : Basis allowed) : ∀ type : Ty,
    (∀ name ∈ type.references, allowed (decoderName name)) →
      Always (decoder type) (Expr.FreeIn allowed)
  | .unit, _ | .bool, _ | .int, _ | .float, _ | .char, _ | .string, _ => by
    rw [decoder]
    exact .pure (.var (hbasis _ (by simp [libraryFunctions, Toolkit.all])))
  | .named name, hreferences => by
    rw [decoder]
    refine .pure (.call (hbasis _ (by simp [libraryFunctions])) (List.forall_mem_singleton.2 ?_))
    exact .lambda (.var (.inr (hreferences name (by simp [Ty.references]))))
  | .list item, hreferences | .maybe item, hreferences => by
    rw [Ty.references] at hreferences
    rw [decoder]
    refine (decoder_freeIn hbasis item hreferences).bind fun e he => .pure (.call ?_ ?_)
    · exact hbasis _ (by simp [libraryFunctions, Toolkit.all])
    · exact List.forall_mem_singleton.2 he
  | .pair first second, hreferences | .result first second, hreferences => by
    rw [Ty.references, List.forall_mem_append] at hreferences
    rw [decoder]
    refine (decoder_freeIn hbasis first hreferences.1).bind fun e he => ?_
    refine (decoder_freeIn hbasis second hreferences.2).bind fun e' he' => .pure (.call ?_ ?_)
    · exact hbasis _ (by simp [libraryFunctions, Toolkit.all])
    · exact List.forall_mem_cons.2 ⟨he, List.forall_mem_singleton.2 he'⟩
  | .triple first second third, hreferences => by
    rw [Ty.references, List.forall_mem_append, List.forall_mem_append] at hreferences
    rw [decoder]
    refine (decoder_freeIn hbasis first hreferences.1.1).bind fun e he => ?_
    refine (decoder_freeIn hbasis second hreferences.1.2).bind fun e' he' => ?_
    refine (decoder_freeIn hbasis third hreferences.2).bind fun e'' he'' => .pure (.call ?_ ?_)
    · exact hbasis _ (by simp [libraryFunctions, Toolkit.all])
    · exact List.forall_mem_cons.2
        ⟨he, List.forall_mem_cons.2 ⟨he', List.forall_mem_singleton.2 he''⟩⟩
  | .record fields, hreferences => by
    rw [Ty.references] at hreferences
    rw [decoder]
    exact recordDecoder_freeIn hbasis (by simp) (fieldDecoders_freeIn hbasis fields hreferences)

theorem fieldDecoders_freeIn {allowed : String → Prop} (hbasis : Basis allowed) :
    ∀ fields : List (String × Ty), (∀ name ∈ fieldReferences fields, allowed (decoderName name)) →
      Always (fieldDecoders fields) fun stages => ∀ e ∈ stages, e.FreeIn allowed
  | [], _ => by
    rw [fieldDecoders]
    exact .pure (List.forall_mem_nil _)
  | (name, type) :: rest, hreferences => by
    rw [fieldReferences, List.forall_mem_append] at hreferences
    rw [fieldDecoders]
    refine (decoder_freeIn hbasis type hreferences.1).bind fun e he => ?_
    refine (fieldDecoders_freeIn hbasis rest hreferences.2).bind
      fun stages hstages => .pure (List.forall_mem_cons.2 ⟨.call ?_ ?_, hstages⟩)
    · exact hbasis _ (by simp [Toolkit.all])
    · exact List.forall_mem_cons.2 ⟨.string name, List.forall_mem_singleton.2 he⟩

end

/-- The decoder of an alias may refer to the constructor of its record. -/
theorem decodeAlias_freeIn {allowed : String → Prop} (hbasis : Basis allowed) {name : String}
    {type : Ty} (hctors : ∀ ctor ∈ (TypeDef.alias name type).constructors, allowed ctor)
    (hreferences : ∀ name ∈ type.references, allowed (decoderName name)) :
    Always (decodeAlias name type) (Expr.FreeIn allowed) := by
  fun_cases decodeAlias name type with
  | case1 fields =>
    rw [Ty.references] at hreferences
    refine recordDecoder_freeIn hbasis ?_ (fieldDecoders_freeIn hbasis fields hreferences)
    rintro _ ⟨⟩
    exact hctors name (by simp [TypeDef.constructors])
  | case2 => exact decoder_freeIn hbasis type hreferences

theorem argumentDecoders_freeIn {allowed : String → Prop} (hbasis : Basis allowed) (i : Nat)
    {types : List Ty}
    (hreferences : ∀ type ∈ types, ∀ name ∈ type.references, allowed (decoderName name)) :
    Always (argumentDecoders i types) fun arguments => ∀ e ∈ arguments, e.FreeIn allowed := by
  induction types generalizing i with
  | nil => exact .pure (List.forall_mem_nil _)
  | cons type rest ih =>
    obtain ⟨htype, hrest⟩ := List.forall_mem_cons.1 hreferences
    rw [argumentDecoders]
    refine (decoder_freeIn hbasis type htype).bind fun e he => ?_
    refine (ih (i + 1) hrest).bind
      fun arguments harguments => .pure (List.forall_mem_cons.2 ⟨.call ?_ ?_, harguments⟩)
    · exact hbasis _ (by simp [Toolkit.all])
    · exact List.forall_mem_cons.2 ⟨.int i, List.forall_mem_singleton.2 he⟩

/-- There is a function in the library for every number of decoders that is combined in one step. -/
theorem mapFunction_mem : ∀ n ≤ maxMapArity, 2 ≤ n →
    "Json.Decode.map" ++ toString n ∈ libraryFunctions := by
  decide

theorem combine_freeIn {allowed : String → Prop} (hbasis : Basis allowed) {name : String}
    (hname : allowed name) {arguments : List Expr} (h : ∀ e ∈ arguments, e.FreeIn allowed) :
    (combine name arguments).FreeIn allowed := by
  have hctor : ∀ e ∈ [Expr.var name], e.FreeIn allowed := List.forall_mem_singleton.2 (.var hname)
  fun_cases combine name arguments with
  | case1 => exact .call (hbasis _ (by simp [libraryFunctions])) hctor
  | case2 => exact .apply (.call (hbasis _ (by simp [libraryFunctions])) hctor) h
  | case3 _ hzero hone hle =>
    refine .apply (.call (hbasis _ (List.mem_append_left _ ?_)) hctor) h
    have hne : arguments.length ≠ 0 ∧ arguments.length ≠ 1 := ⟨hzero, hone⟩
    exact mapFunction_mem _ hle (by omega)
  | case4 =>
    refine .through (.call (hbasis _ (by simp [libraryFunctions])) hctor) ?_
    refine List.forall_mem_map.2 fun e he => .call (hbasis _ (by simp [Toolkit.all])) ?_
    exact List.forall_mem_singleton.2 (h e he)

/-- **What decoders refer to.** -/
theorem freeIn_decoderBody {allowed : String → Prop} (hbasis : Basis allowed) (d : TypeDef)
    (hctors : ∀ ctor ∈ d.constructors, allowed ctor)
    (hreferences : ∀ name ∈ d.references, allowed (decoderName name)) :
    (decoderBody d).FreeIn allowed := by
  cases d with
  | «alias» name type => exact decodeAlias_freeIn hbasis hctors hreferences Names.none
  | custom name ctors =>
    have hdecoders : ∀ ctor ∈ ctors, Always (decodeCtor ctor) (Expr.FreeIn allowed) := by
      intro ctor hctor
      rw [decodeCtor]
      refine (argumentDecoders_freeIn hbasis 0 fun type htype reference hreference =>
        hreferences reference (references_subset_of_mem_arguments hctor htype name hreference)).bind
        fun arguments harguments => .pure (.call (hbasis _ (by simp [Toolkit.all])) ?_)
      have hname : allowed ctor.name := hctors _ (List.mem_map_of_mem hctor)
      exact List.forall_mem_cons.2
        ⟨.string _, List.forall_mem_singleton.2 (combine_freeIn hbasis hname harguments)⟩
    have hbody : Always (decodeCtors ctors) (Expr.FreeIn allowed) := by
      rw [decodeCtors]
      refine (Always.mapM hdecoders).bind fun variants hvariants =>
        .pure (.call (hbasis _ (by simp [Toolkit.all])) (List.forall_mem_singleton.2 ?_))
      exact .list hvariants
    exact hbody Names.none

end ElmWire.Elm
