import ElmWire.Proofs.Elm.Documents
import ElmWire.Proofs.Elm.Module
import ElmWire.Proofs.Elm.Scope

/-!
# The names in generated code

Generated code has the names of its definition in it, those of the libraries and the toolkit, and
some that are made up: variables, and the codecs of definitions.  `Coined P` says that the others
have a property if those of the definition have it.  Then all names in the generated types and
codecs have it (`named_toElm`, `named_codecs`).
-/

set_option autoImplicit false
namespace ElmWire

/-! ## The names in definitions -/

mutual

/-- The names in a type: those of definitions and those of fields. -/
@[simp] def Ty.words : Ty → List String
  | .unit | .bool | .int | .float | .char | .string => []
  | .named name => [name]
  | .list item | .maybe item => item.words
  | .pair first second | .result first second => first.words ++ second.words
  | .triple first second third => first.words ++ second.words ++ third.words
  | .record fields => fieldWords fields

/-- The names in the fields of a record type. -/
@[simp] def fieldWords : List (String × Ty) → List String
  | [] => []
  | (name, type) :: rest => name :: type.words ++ fieldWords rest

end

/-- The names in a definition: its own, those of its constructors and those in its types. -/
def TypeDef.words : TypeDef → List String
  | .alias name type => name :: type.words
  | .custom name ctors =>
    name :: ctors.flatMap fun ctor => ctor.name :: ctor.arguments.flatMap Ty.words

namespace Elm

/-! ## The names in generated code -/

/-- The names of types that are not defined by a schema. -/
def libraryTypes : List String := [
  "Bool", "Int", "Float", "Char", "String", "List", "Maybe", "Result",
  "Json.Encode.Value", "Json.Decode.Decoder"]

/-- A property that names have which are made up for generated code, given that those in the
definition have it. -/
structure Coined (P : String → Prop) : Prop where
  library : ∀ name ∈ libraryFunctions ++ Toolkit.all ++ libraryTypes, P name
  isLocal : ∀ {name : String}, IsLocal name → P name
  encoderName : ∀ {name : String}, P name → P (encoderName name)
  decoderName : ∀ {name : String}, P name → P (decoderName name)

/-- All names in the expression have the property. -/
def Expr.Named (P : String → Prop) (e : Expr) : Prop := ∀ name ∈ e.names, P name

section

variable {P : String → Prop}

theorem forall_mem_exprNames {es : List Expr} :
    (∀ name ∈ exprNames es, P name) ↔ ∀ e ∈ es, e.Named P := by
  rw [exprNames_eq_flatMap, List.forall_mem_flatMap]
  rfl

namespace Expr.Named

theorem var {name : String} (h : P name) : (Expr.var name).Named P :=
  List.forall_mem_singleton.2 h

theorem apply {function : Expr} {arguments : List Expr} (hfunction : function.Named P)
    (h : ∀ e ∈ arguments, e.Named P) : (function.apply arguments).Named P := by
  fun_cases Expr.apply function arguments with
  | case1 => exact hfunction
  | case2 arguments hne function first =>
    obtain ⟨hfunction, hfirst⟩ := List.forall_mem_append.1 hfunction
    refine List.forall_mem_append.2 ⟨hfunction, forall_mem_exprNames.2 ?_⟩
    exact List.forall_mem_append.2 ⟨forall_mem_exprNames.1 hfirst, h⟩
  | case3 => exact List.forall_mem_append.2 ⟨hfunction, forall_mem_exprNames.2 h⟩

theorem call {name : String} {arguments : List Expr} (hname : P name)
    (h : ∀ e ∈ arguments, e.Named P) : (Expr.call name arguments).Named P := (var hname).apply h

theorem through {head : Expr} {stages : List Expr} (hhead : head.Named P)
    (h : ∀ e ∈ stages, e.Named P) : (head.through stages).Named P := by
  fun_cases Expr.through head stages with
  | case1 => exact hhead
  | case2 => exact List.forall_mem_append.2 ⟨hhead, forall_mem_exprNames.2 h⟩

/-- A function of variables. -/
theorem lambda {params : List String} {body : Expr} (hparams : ∀ name ∈ params, P name)
    (hbody : body.Named P) : (Expr.lambda (params.map .var) body).Named P := by
  refine List.forall_mem_append.2 ⟨?_, hbody⟩
  rw [patternNames_eq_flatMap]
  simpa using hparams

end Expr.Named

theorem freshValue_isLocal : Always freshValue IsLocal :=
  fun names => ⟨"value", by simp, names.values, rfl⟩

theorem freshArgument_isLocal : Always freshArgument IsLocal :=
  fun names => ⟨"arg", by simp, names.arguments, rfl⟩

theorem freshField_isLocal : Always freshField IsLocal :=
  fun names => ⟨"field", by simp, names.fields, rfl⟩

/-- Names in encoders for the type have the property: functions as well as expressions for the JSON
of some subject. -/
structure EncodesNamed (P : String → Prop) (type : Ty) : Prop where
  encoder : Always (encoder type) (Expr.Named P)
  encodeOf : ∀ subject : Expr, subject.Named P → Always (encodeOf subject type) (Expr.Named P)

/-- Unless the subject is a record, its JSON is the encoder applied to it. -/
theorem encodesNamed_of_encoder {type : Ty} (hrecord : ∀ fields, type ≠ .record fields)
    (h : Always (encoder type) (Expr.Named P)) : EncodesNamed P type := by
  refine ⟨h, fun subject hsubject => ?_⟩
  have heq : encodeOf subject type = encoder type >>= fun e => pure (e.apply [subject]) := by
    cases type with
    | record fields => exact absurd rfl (hrecord fields)
    | _ => rw [encodeOf]; simp
  rw [heq]
  exact h.bind fun e he => .pure (he.apply (List.forall_mem_singleton.2 hsubject))

theorem Coined.encodeRecord (hP : Coined P) {pairs : List Expr} (h : ∀ e ∈ pairs, e.Named P) :
    (Expr.call Toolkit.encodeRecord [.list pairs]).Named P :=
  .call (hP.library _ (by simp [Toolkit.all])) (List.forall_mem_singleton.2
    (forall_mem_exprNames.2 h))

mutual

theorem encodesNamed (hP : Coined P) : ∀ type : Ty, (∀ name ∈ type.words, P name) →
    EncodesNamed P type
  | .unit, _ | .bool, _ | .int, _ | .float, _ | .char, _ | .string, _ =>
    encodesNamed_of_encoder (by simp) (by
      rw [encoder]
      exact .pure (.var (hP.library _ (by simp [libraryFunctions, Toolkit.all]))))
  | .named name, h => encodesNamed_of_encoder (by simp) (by
    rw [encoder]
    exact .pure (.var (hP.encoderName (h name (by simp)))))
  | .list item, h | .maybe item, h => encodesNamed_of_encoder (by simp) (by
    rw [encoder]
    refine (encodesNamed hP item h).encoder.bind fun e he => .pure (.call ?_ ?_)
    · exact hP.library _ (by simp [libraryFunctions, Toolkit.all])
    · exact List.forall_mem_singleton.2 he)
  | .pair first second, h | .result first second, h => encodesNamed_of_encoder (by simp) (by
    obtain ⟨hfirst, hsecond⟩ := List.forall_mem_append.1 h
    rw [encoder]
    refine (encodesNamed hP first hfirst).encoder.bind fun e he => ?_
    refine (encodesNamed hP second hsecond).encoder.bind fun e' he' => .pure (.call ?_ ?_)
    · exact hP.library _ (by simp [libraryFunctions, Toolkit.all])
    · exact List.forall_mem_cons.2 ⟨he, List.forall_mem_singleton.2 he'⟩)
  | .triple first second third, h => encodesNamed_of_encoder (by simp) (by
    obtain ⟨h, hthird⟩ := List.forall_mem_append.1 h
    obtain ⟨hfirst, hsecond⟩ := List.forall_mem_append.1 h
    rw [encoder]
    refine (encodesNamed hP first hfirst).encoder.bind fun e he => ?_
    refine (encodesNamed hP second hsecond).encoder.bind fun e' he' => ?_
    refine (encodesNamed hP third hthird).encoder.bind fun e'' he'' => .pure (.call ?_ ?_)
    · exact hP.library _ (by simp [libraryFunctions, Toolkit.all])
    · exact List.forall_mem_cons.2
        ⟨he, List.forall_mem_cons.2 ⟨he', List.forall_mem_singleton.2 he''⟩⟩)
  | .record fields, h => by
    refine ⟨?_, fun subject hsubject => ?_⟩
    · rw [encoder]
      refine freshValue_isLocal.bind fun value hvalue => ?_
      have hvalue : P value := hP.isLocal hvalue
      refine (encodeFields_named hP fields h _ (.var hvalue)).bind fun pairs hpairs => .pure ?_
      exact .lambda (List.forall_mem_singleton.2 hvalue) (hP.encodeRecord hpairs)
    · rw [encodeOf]
      exact (encodeFields_named hP fields h subject hsubject).bind
        fun pairs hpairs => .pure (hP.encodeRecord hpairs)

theorem encodeFields_named (hP : Coined P) : ∀ fields : List (String × Ty),
    (∀ name ∈ fieldWords fields, P name) → ∀ subject : Expr, subject.Named P →
      Always (encodeFields subject fields) fun pairs => ∀ e ∈ pairs, e.Named P
  | [], _, _, _ => by
    rw [encodeFields]
    exact .pure (List.forall_mem_nil _)
  | (name, type) :: rest, h, subject, hsubject => by
    obtain ⟨hname, h⟩ := List.forall_mem_cons.1 h
    obtain ⟨htype, hrest⟩ := List.forall_mem_append.1 h
    have hfield : (Expr.access subject name).Named P := List.forall_mem_cons.2 ⟨hname, hsubject⟩
    rw [encodeFields]
    refine ((encodesNamed hP type htype).encodeOf _ hfield).bind fun e he => ?_
    refine (encodeFields_named hP rest hrest subject hsubject).bind
      fun pairs hpairs => .pure (List.forall_mem_cons.2 ⟨?_, hpairs⟩)
    refine forall_mem_exprNames.2 (List.forall_mem_cons.2 ⟨List.forall_mem_nil _, ?_⟩)
    exact List.forall_mem_singleton.2 he

end

theorem encodeCtor_named (hP : Coined P) {ctor : Ctor} (hname : P ctor.name)
    (h : ∀ type ∈ ctor.arguments, ∀ name ∈ type.words, P name) :
    Always (encodeCtor ctor) fun branch => ∀ name ∈ branch.1.names ++ branch.2.names, P name := by
  rw [encodeCtor]
  refine (Always.mapM fun _ _ => freshArgument_isLocal).bind fun arguments harguments => ?_
  have harguments : ∀ argument ∈ arguments, P argument :=
    fun argument hmem => hP.isLocal (harguments argument hmem)
  have hencoded : ∀ place ∈ ctor.arguments.zip arguments,
      Always (encodeOf (.var place.2) place.1) (Expr.Named P) := by
    intro place hplace
    obtain ⟨htype, hargument⟩ := List.of_mem_zip hplace
    exact (encodesNamed hP place.1 (h place.1 htype)).encodeOf _ (.var (harguments _ hargument))
  refine (Always.mapM hencoded).bind fun encoded hall => .pure ?_
  have hbody : (Expr.call Toolkit.encodeVariant [.string ctor.name, .list encoded]).Named P := by
    refine .call (hP.library _ (by simp [Toolkit.all])) ?_
    refine List.forall_mem_cons.2 ⟨List.forall_mem_nil _, List.forall_mem_singleton.2 ?_⟩
    exact forall_mem_exprNames.2 hall
  refine List.forall_mem_append.2 ⟨List.forall_mem_cons.2 ⟨hname, ?_⟩, hbody⟩
  rw [patternNames_eq_flatMap]
  simpa using harguments

/-- **The names in encoders.** -/
theorem named_encoderBody (hP : Coined P) {d : TypeDef} (h : ∀ name ∈ d.words, P name) :
    (encoderBody d).Named P := by
  cases d with
  | «alias» name type =>
    exact (encodesNamed hP type (List.forall_mem_cons.1 h).2).encoder Names.none
  | custom name ctors =>
    have hctors := List.forall_mem_flatMap.1 (List.forall_mem_cons.1 h).2
    have hctor : ∀ ctor ∈ ctors, Always (encodeCtor ctor) fun branch =>
        ∀ name ∈ branch.1.names ++ branch.2.names, P name := by
      intro ctor hctor
      obtain ⟨hname, harguments⟩ := List.forall_mem_cons.1 (hctors ctor hctor)
      exact encodeCtor_named hP hname (List.forall_mem_flatMap.1 harguments)
    have hencoder : Always (encodeCtors ctors) (Expr.Named P) := by
      rw [encodeCtors]
      refine freshValue_isLocal.bind fun value hvalue => ?_
      have hvalue : ∀ name ∈ [value], P name := List.forall_mem_singleton.2 (hP.isLocal hvalue)
      refine (Always.mapM hctor).bind fun branches hbranches => .pure (.lambda hvalue ?_)
      rw [Expr.Named, Expr.names, branchNames_eq_flatMap]
      exact List.forall_mem_append.2 ⟨hvalue, List.forall_mem_flatMap.2 hbranches⟩
    exact hencoder Names.none

/-! ### Decoders -/

theorem recordBuilder_named (hP : Coined P) {alias? : Option String}
    (halias : ∀ name ∈ alias?, P name) {fields : List (String × Ty)}
    (h : ∀ name ∈ fieldWords fields, P name) :
    Always (recordBuilder alias? fields) (Expr.Named P) := by
  have hlabels : ∀ field ∈ fields, P field.1 := by
    clear halias
    induction fields with
    | nil => exact List.forall_mem_nil _
    | cons field rest ih =>
      obtain ⟨hname, h⟩ := List.forall_mem_cons.1 h
      exact List.forall_mem_cons.2 ⟨hname, ih (List.forall_mem_append.1 h).2⟩
  fun_cases recordBuilder alias? fields with
  | case1 => exact .pure (List.forall_mem_nil _)
  | case2 fields name hne => exact .pure (.var (halias name rfl))
  | case3 fields hne =>
    refine (Always.mapM fun _ _ => freshField_isLocal).bind fun params hparams => .pure ?_
    have hparams : ∀ param ∈ params, P param := fun param hmem => hP.isLocal (hparams param hmem)
    refine .lambda hparams ?_
    rw [Expr.Named, Expr.names, fieldNames_eq_flatMap, List.forall_mem_flatMap, List.forall_mem_map]
    intro place hplace
    obtain ⟨hfield, hparam⟩ := List.of_mem_zip hplace
    exact List.forall_mem_cons.2
      ⟨hlabels _ hfield, List.forall_mem_singleton.2 (hparams _ hparam)⟩

theorem recordDecoder_named (hP : Coined P) {alias? : Option String}
    (halias : ∀ name ∈ alias?, P name) {fields : List (String × Ty)}
    (h : ∀ name ∈ fieldWords fields, P name)
    (hfields : Always (fieldDecoders fields) fun stages => ∀ e ∈ stages, e.Named P) :
    Always (do
      let builder ← recordBuilder alias? fields
      return (Expr.call "Json.Decode.succeed" [builder]).through (← fieldDecoders fields))
      (Expr.Named P) := by
  refine (recordBuilder_named hP halias h).bind fun builder hbuilder => ?_
  refine hfields.bind fun stages hstages => .pure (.through (.call ?_ ?_) hstages)
  · exact hP.library _ (by simp [libraryFunctions])
  · exact List.forall_mem_singleton.2 hbuilder

mutual

theorem decoder_named (hP : Coined P) : ∀ type : Ty, (∀ name ∈ type.words, P name) →
    Always (decoder type) (Expr.Named P)
  | .unit, _ | .bool, _ | .int, _ | .float, _ | .char, _ | .string, _ => by
    rw [decoder]
    exact .pure (.var (hP.library _ (by simp [libraryFunctions, Toolkit.all])))
  | .named name, h => by
    rw [decoder]
    refine .pure (.call (hP.library _ (by simp [libraryFunctions])) ?_)
    refine List.forall_mem_singleton.2 (List.forall_mem_append.2 ⟨List.forall_mem_nil _, ?_⟩)
    exact List.forall_mem_singleton.2 (hP.decoderName (h name (by simp)))
  | .list item, h | .maybe item, h => by
    rw [decoder]
    refine (decoder_named hP item h).bind fun e he => .pure (.call ?_ ?_)
    · exact hP.library _ (by simp [libraryFunctions, Toolkit.all])
    · exact List.forall_mem_singleton.2 he
  | .pair first second, h | .result first second, h => by
    obtain ⟨hfirst, hsecond⟩ := List.forall_mem_append.1 h
    rw [decoder]
    refine (decoder_named hP first hfirst).bind fun e he => ?_
    refine (decoder_named hP second hsecond).bind fun e' he' => .pure (.call ?_ ?_)
    · exact hP.library _ (by simp [libraryFunctions, Toolkit.all])
    · exact List.forall_mem_cons.2 ⟨he, List.forall_mem_singleton.2 he'⟩
  | .triple first second third, h => by
    obtain ⟨h, hthird⟩ := List.forall_mem_append.1 h
    obtain ⟨hfirst, hsecond⟩ := List.forall_mem_append.1 h
    rw [decoder]
    refine (decoder_named hP first hfirst).bind fun e he => ?_
    refine (decoder_named hP second hsecond).bind fun e' he' => ?_
    refine (decoder_named hP third hthird).bind fun e'' he'' => .pure (.call ?_ ?_)
    · exact hP.library _ (by simp [libraryFunctions, Toolkit.all])
    · exact List.forall_mem_cons.2
        ⟨he, List.forall_mem_cons.2 ⟨he', List.forall_mem_singleton.2 he''⟩⟩
  | .record fields, h => by
    rw [decoder]
    exact recordDecoder_named hP (by simp) h (fieldDecoders_named hP fields h)

theorem fieldDecoders_named (hP : Coined P) : ∀ fields : List (String × Ty),
    (∀ name ∈ fieldWords fields, P name) →
      Always (fieldDecoders fields) fun stages => ∀ e ∈ stages, e.Named P
  | [], _ => by
    rw [fieldDecoders]
    exact .pure (List.forall_mem_nil _)
  | (name, type) :: rest, h => by
    obtain ⟨-, h⟩ := List.forall_mem_cons.1 h
    obtain ⟨htype, hrest⟩ := List.forall_mem_append.1 h
    rw [fieldDecoders]
    refine (decoder_named hP type htype).bind fun e he => ?_
    refine (fieldDecoders_named hP rest hrest).bind
      fun stages hstages => .pure (List.forall_mem_cons.2 ⟨.call ?_ ?_, hstages⟩)
    · exact hP.library _ (by simp [Toolkit.all])
    · exact List.forall_mem_cons.2 ⟨List.forall_mem_nil _, List.forall_mem_singleton.2 he⟩

end

theorem argumentDecoders_named (hP : Coined P) (i : Nat) {types : List Ty}
    (h : ∀ type ∈ types, ∀ name ∈ type.words, P name) :
    Always (argumentDecoders i types) fun arguments => ∀ e ∈ arguments, e.Named P := by
  induction types generalizing i with
  | nil => exact .pure (List.forall_mem_nil _)
  | cons type rest ih =>
    obtain ⟨htype, hrest⟩ := List.forall_mem_cons.1 h
    rw [argumentDecoders]
    refine (decoder_named hP type htype).bind fun e he => ?_
    refine (ih (i + 1) hrest).bind
      fun arguments harguments => .pure (List.forall_mem_cons.2 ⟨.call ?_ ?_, harguments⟩)
    · exact hP.library _ (by simp [Toolkit.all])
    · exact List.forall_mem_cons.2 ⟨List.forall_mem_nil _, List.forall_mem_singleton.2 he⟩

theorem combine_named (hP : Coined P) {name : String} (hname : P name) {arguments : List Expr}
    (h : ∀ e ∈ arguments, e.Named P) : (combine name arguments).Named P := by
  have hctor : ∀ e ∈ [Expr.var name], e.Named P := List.forall_mem_singleton.2 (.var hname)
  fun_cases combine name arguments with
  | case1 => exact .call (hP.library _ (by simp [libraryFunctions])) hctor
  | case2 => exact .apply (.call (hP.library _ (by simp [libraryFunctions])) hctor) h
  | case3 _ hzero hone hle =>
    have hne : arguments.length ≠ 0 ∧ arguments.length ≠ 1 := ⟨hzero, hone⟩
    have hmem := mapFunction_mem _ hle (by omega)
    have hlibrary := hP.library _ (List.mem_append_left _ (List.mem_append_left _ hmem))
    exact .apply (.call hlibrary hctor) h
  | case4 =>
    refine .through (.call (hP.library _ (by simp [libraryFunctions])) hctor) ?_
    refine List.forall_mem_map.2 fun e he => .call (hP.library _ (by simp [Toolkit.all])) ?_
    exact List.forall_mem_singleton.2 (h e he)

/-- **The names in decoders.** -/
theorem named_decoderBody (hP : Coined P) {d : TypeDef} (h : ∀ name ∈ d.words, P name) :
    (decoderBody d).Named P := by
  cases d with
  | «alias» name type =>
    obtain ⟨hname, htype⟩ := List.forall_mem_cons.1 h
    have hdecoder : Always (decodeAlias name type) (Expr.Named P) := by
      fun_cases decodeAlias name type with
      | case1 fields =>
        refine recordDecoder_named hP ?_ htype (fieldDecoders_named hP fields htype)
        rintro _ ⟨⟩
        exact hname
      | case2 => exact decoder_named hP type htype
    exact hdecoder Names.none
  | custom name ctors =>
    have hctors := List.forall_mem_flatMap.1 (List.forall_mem_cons.1 h).2
    have hctor : ∀ ctor ∈ ctors, Always (decodeCtor ctor) (Expr.Named P) := by
      intro ctor hctor
      obtain ⟨hname, harguments⟩ := List.forall_mem_cons.1 (hctors ctor hctor)
      rw [decodeCtor]
      refine (argumentDecoders_named hP 0 (List.forall_mem_flatMap.1 harguments)).bind
        fun arguments harguments => .pure (.call (hP.library _ (by simp [Toolkit.all])) ?_)
      exact List.forall_mem_cons.2 ⟨List.forall_mem_nil _,
        List.forall_mem_singleton.2 (combine_named hP hname harguments)⟩
    have hdecoder : Always (decodeCtors ctors) (Expr.Named P) := by
      rw [decodeCtors]
      refine (Always.mapM hctor).bind fun variants hvariants =>
        .pure (.call (hP.library _ (by simp [Toolkit.all])) (List.forall_mem_singleton.2 ?_))
      exact forall_mem_exprNames.2 hvariants
    exact hdecoder Names.none

/-! ### Declarations -/

mutual

theorem named_type (hP : Coined P) : ∀ type : Ty, (∀ name ∈ type.words, P name) →
    ∀ name ∈ type.toElm.names, P name
  | .unit, _ => by rw [Ty.toElm]; exact List.forall_mem_nil _
  | .bool, _ | .int, _ | .float, _ | .char, _ | .string, _ => by
    rw [Ty.toElm]
    exact List.forall_mem_singleton.2 (hP.library _ (by simp [libraryTypes]))
  | .named name, h => by rw [Ty.toElm]; exact h
  | .list item, h | .maybe item, h => by
    rw [Ty.toElm]
    refine List.forall_mem_cons.2 ⟨hP.library _ (by simp [libraryTypes]), ?_⟩
    simpa using named_type hP item h
  | .pair first second, h => by
    obtain ⟨hfirst, hsecond⟩ := List.forall_mem_append.1 h
    rw [Ty.toElm]
    refine List.forall_mem_append.2 ⟨named_type hP first hfirst, ?_⟩
    simpa using named_type hP second hsecond
  | .result first second, h => by
    obtain ⟨hfirst, hsecond⟩ := List.forall_mem_append.1 h
    rw [Ty.toElm]
    refine List.forall_mem_cons.2 ⟨hP.library _ (by simp [libraryTypes]), ?_⟩
    refine List.forall_mem_append.2 ⟨named_type hP first hfirst, ?_⟩
    simpa using named_type hP second hsecond
  | .triple first second third, h => by
    obtain ⟨h, hthird⟩ := List.forall_mem_append.1 h
    obtain ⟨hfirst, hsecond⟩ := List.forall_mem_append.1 h
    rw [Ty.toElm]
    refine List.forall_mem_append.2 ⟨named_type hP first hfirst, ?_⟩
    refine List.forall_mem_append.2 ⟨named_type hP second hsecond, ?_⟩
    simpa using named_type hP third hthird
  | .record fields, h => by
    rw [Ty.toElm]
    exact named_fieldTypes hP fields h

theorem named_fieldTypes (hP : Coined P) : ∀ fields : List (String × Ty),
    (∀ name ∈ fieldWords fields, P name) → ∀ name ∈ typeFieldNames (fieldTypes fields), P name
  | [], _ => by rw [fieldTypes]; exact List.forall_mem_nil _
  | (name, type) :: rest, h => by
    obtain ⟨hname, h⟩ := List.forall_mem_cons.1 h
    obtain ⟨htype, hrest⟩ := List.forall_mem_append.1 h
    rw [fieldTypes]
    refine List.forall_mem_cons.2 ⟨hname, ?_⟩
    exact List.forall_mem_append.2 ⟨named_type hP type htype, named_fieldTypes hP rest hrest⟩

end

/-- The names in generated types. -/
theorem named_toElm (hP : Coined P) {d : TypeDef} (h : ∀ name ∈ d.words, P name) :
    ∀ name ∈ d.toElm.names, P name := by
  cases d with
  | «alias» name type =>
    obtain ⟨hname, htype⟩ := List.forall_mem_cons.1 h
    exact List.forall_mem_cons.2 ⟨hname, named_type hP type htype⟩
  | custom name ctors =>
    obtain ⟨hname, hctors⟩ := List.forall_mem_cons.1 h
    refine List.forall_mem_cons.2 ⟨hname, ?_⟩
    rw [List.flatMap_map, List.forall_mem_flatMap]
    intro ctor hctor
    obtain ⟨hctorName, harguments⟩ :=
      List.forall_mem_cons.1 (List.forall_mem_flatMap.1 hctors ctor hctor)
    refine List.forall_mem_cons.2 ⟨hctorName, ?_⟩
    have htypes : ∀ types : List Ty, (∀ type ∈ types, ∀ name ∈ type.words, P name) →
        ∀ name ∈ typeNames (types.map Ty.toElm), P name := by
      intro types htypes
      induction types with
      | nil => exact List.forall_mem_nil _
      | cons type rest ih =>
        obtain ⟨htype, hrest⟩ := List.forall_mem_cons.1 htypes
        exact List.forall_mem_append.2 ⟨named_type hP type htype, ih hrest⟩
    exact htypes ctor.arguments (List.forall_mem_flatMap.1 harguments)

/-- The names in generated codecs. -/
theorem named_codecs (hP : Coined P) {d : TypeDef} (h : ∀ name ∈ d.words, P name) :
    ∀ decl ∈ codecs d, ∀ name ∈ decl.names, P name := by
  have hname : P d.name := h d.name (by cases d <;> exact List.mem_cons_self)
  refine List.forall_mem_cons.2 ⟨?_, List.forall_mem_singleton.2 ?_⟩
  · refine List.forall_mem_cons.2 ⟨hP.encoderName hname, ?_⟩
    refine List.forall_mem_append.2 ⟨List.forall_mem_cons.2 ⟨hname, ?_⟩, named_encoderBody hP h⟩
    exact List.forall_mem_singleton.2 (hP.library _ (by simp [libraryTypes]))
  · refine List.forall_mem_cons.2 ⟨hP.decoderName hname, ?_⟩
    refine List.forall_mem_append.2 ⟨List.forall_mem_cons.2 ⟨?_, ?_⟩, named_decoderBody hP h⟩
    · exact hP.library _ (by simp [libraryTypes])
    · exact List.forall_mem_singleton.2 hname

end
end Elm
end ElmWire
