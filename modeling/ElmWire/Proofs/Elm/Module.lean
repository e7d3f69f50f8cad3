import Mathlib.Data.List.Nodup
import ElmWire.Elm.Codec
import ElmWire.Extraction.Check
import ElmWire.Proofs.Decimal.Grammar
import ElmWire.Proofs.Elm.Evaluation
import ElmWire.Proofs.Members
import ElmWire.Proofs.Schema

/-!
# Names in a generated module

`Schema.toElm` is the module that is generated for a schema: its types, and an encoder and a
decoder for each definition.  The lemmas say what the names mean that occur in it.

* The name of an encoder or a decoder is a reference to the body that was generated for the
  definition (`eval_encoderName`, `body?_encoderName`, and so on).
* The functions of the libraries and the toolkit keep their meaning (`eval_builtin`), provided that
  no definition has a reserved name: a definition `Unit` would bring an encoder `encodeUnit`, which
  is a function of the toolkit.
* The name of a constructor means that constructor (`eval_constructor`), provided that no other
  constructor has the same name.
* A local variable is named `value0`, `arg0`, `field0` and so on, and hides none of these
  (`Locals`).
-/

set_option autoImplicit false
namespace ElmWire

/-- The declarations of the module that is generated for a schema. -/
def Schema.toElm (schema : Schema) : List Elm.Decl :=
  schema.defs.map TypeDef.toElm ++ schema.defs.flatMap Elm.codecs

/-- No definition has a reserved name. -/
def Schema.NonReserved (schema : Schema) : Prop :=
  ∀ name ∈ schema.names, name ∉ Extraction.reservedNames

instance (schema : Schema) : Decidable schema.NonReserved :=
  inferInstanceAs (Decidable (∀ name ∈ schema.names, name ∉ Extraction.reservedNames))

namespace Elm

/-! ## Names are different -/

theorem encoderName_injective : Function.Injective encoderName := by
  intro a b h
  rw [encoderName, encoderName, ← String.toList_inj, String.toList_append, String.toList_append,
    List.append_cancel_left_eq, String.toList_inj] at h
  exact h

theorem decoderName_injective : Function.Injective decoderName := by
  intro a b h
  rw [decoderName, decoderName, ← String.toList_inj, String.toList_append, String.toList_append,
    List.append_cancel_left_eq, String.toList_inj] at h
  exact h

theorem head_encoderName (name : String) : (encoderName name).toList.head? = some 'e' := by
  rw [encoderName, String.toList_append]
  rfl

theorem head_decoderName (name : String) : (decoderName name).toList.head? = some 'd' := by
  rw [decoderName, String.toList_append]
  rfl

theorem encoderName_ne_decoderName (a b : String) : encoderName a ≠ decoderName b := by
  intro h
  have hhead := congrArg (fun s => s.toList.head?) h
  simp only [head_encoderName, head_decoderName] at hhead
  exact absurd hhead (by decide)

/-- Of some names, those that the codec of a definition could have belong to reserved names. -/
def CodecsReserved (names : List String) : Prop :=
  ∀ name ∈ names, name.toList.take 6 = "encode".toList ∨ name.toList.take 6 = "decode".toList →
    String.ofList (name.toList.drop 6) ∈ Extraction.reservedNames

instance (names : List String) : Decidable (CodecsReserved names) :=
  inferInstanceAs (Decidable (∀ name ∈ names, name.toList.take 6 = "encode".toList ∨
    name.toList.take 6 = "decode".toList →
      String.ofList (name.toList.drop 6) ∈ Extraction.reservedNames))

theorem CodecsReserved.of_encoderName {names : List String} (hnames : CodecsReserved names)
    {name : String} (h : encoderName name ∈ names) : name ∈ Extraction.reservedNames := by
  have hreserved := hnames _ h
  rw [encoderName, String.toList_append] at hreserved
  simpa using hreserved (.inl rfl)

theorem CodecsReserved.of_decoderName {names : List String} (hnames : CodecsReserved names)
    {name : String} (h : decoderName name ∈ names) : name ∈ Extraction.reservedNames := by
  have hreserved := hnames _ h
  rw [decoderName, String.toList_append] at hreserved
  simpa using hreserved (.inr rfl)

theorem codecsReserved_builtins : CodecsReserved (builtins.map Prod.fst) := by decide

theorem head_builtins : ∀ name ∈ builtins.map Prod.fst,
    name.toList.head? ∈ [some 'J', some 'e', some 'd'] := by
  decide

/-! ## The bodies of codecs -/

/-- The body of a codec of a definition, by its name. -/
def codecBody? (name : String) (d : TypeDef) : Option Expr :=
  if encoderName d.name = name then some (encoderBody d)
  else if decoderName d.name = name then some (decoderBody d)
  else none

theorem body?_types (defs : List TypeDef) (name : String) :
    body? (defs.map TypeDef.toElm) name = none := by
  rw [body?, List.findSome?_eq_none_iff]
  intro decl hmem
  obtain ⟨d, -, rfl⟩ := List.mem_map.1 hmem
  cases d <;> rfl

theorem body?_codecs (defs : List TypeDef) (name : String) :
    body? (defs.flatMap codecs) name = defs.findSome? (codecBody? name) := by
  induction defs with
  | nil => rfl
  | cons d rest ih =>
    rw [body?] at ih ⊢
    rw [List.flatMap_cons, List.findSome?_append, ih, List.findSome?_cons, codecs, codecBody?]
    by_cases hencoder : encoderName d.name = name
    · simp [hencoder]
    · by_cases hdecoder : decoderName d.name = name
      · simp [hencoder, hdecoder]
      · simp [hencoder, hdecoder]

/-- The body of a value of the module is that of a codec. -/
theorem body?_toElm (schema : Schema) (name : String) :
    body? schema.toElm name = schema.defs.findSome? (codecBody? name) := by
  rw [← body?_codecs, body?, Schema.toElm, List.findSome?_append, ← body?, ← body?, body?_types]
  rfl

theorem findSome?_eq_some_of_find? {α β : Type} {p : α → Bool} {f : α → Option β} {as : List α}
    {a : α} (hfind : as.find? p = some a) (hf : ∀ a, p a = false → f a = none) {b : β}
    (hb : f a = some b) : as.findSome? f = some b := by
  induction as with
  | nil => simp at hfind
  | cons first rest ih =>
    rw [List.find?_cons] at hfind
    rw [List.findSome?_cons]
    cases hp : p first with
    | true =>
      rw [hp] at hfind
      cases hfind
      rw [hb]
    | false =>
      rw [hp] at hfind
      rw [hf first hp]
      exact ih hfind

theorem body?_encoderName {schema : Schema} {name : String} {d : TypeDef}
    (hget : schema.get? name = some d) :
    body? schema.toElm (encoderName name) = some (encoderBody d) := by
  rw [body?_toElm]
  refine findSome?_eq_some_of_find? hget (fun other hother => ?_) ?_
  · have hne : other.name ≠ name := by simpa using hother
    rw [codecBody?, if_neg fun h => hne (encoderName_injective h),
      if_neg fun h => encoderName_ne_decoderName _ _ h.symm]
  · rw [codecBody?, if_pos (by rw [Schema.name_of_get? hget])]

theorem body?_decoderName {schema : Schema} {name : String} {d : TypeDef}
    (hget : schema.get? name = some d) :
    body? schema.toElm (decoderName name) = some (decoderBody d) := by
  rw [body?_toElm]
  refine findSome?_eq_some_of_find? hget (fun other hother => ?_) ?_
  · have hne : other.name ≠ name := by simpa using hother
    rw [codecBody?, if_neg (encoderName_ne_decoderName _ _),
      if_neg fun h => hne (decoderName_injective h)]
  · rw [codecBody?, if_neg (encoderName_ne_decoderName _ _),
      if_pos (by rw [Schema.name_of_get? hget])]

/-- A name that is not that of a codec has no body. -/
theorem body?_eq_none {schema : Schema} {name : String}
    (h : ∀ other ∈ schema.names, encoderName other ≠ name ∧ decoderName other ≠ name) :
    body? schema.toElm name = none := by
  rw [body?_toElm, List.findSome?_eq_none_iff]
  intro d hmem
  obtain ⟨hencoder, hdecoder⟩ := h d.name (List.mem_map_of_mem hmem)
  rw [codecBody?, if_neg hencoder, if_neg hdecoder]

/-! ## Local variables -/

/-- Is it a name for local variables? -/
def IsLocal (name : String) : Prop :=
  ∃ stem ∈ ["value", "arg", "field"], ∃ i : Nat, name = stem ++ toString i

/-- All variables have names for local variables. -/
def Locals (env : List (String × Val)) : Prop := ∀ pair ∈ env, IsLocal pair.1

theorem Locals.nil : Locals [] := by simp [Locals]

theorem Locals.cons {env : List (String × Val)} (h : Locals env) {x : String} (hx : IsLocal x)
    (v : Val) : Locals ((x, v) :: env) := List.forall_mem_cons.2 ⟨hx, h⟩

theorem Locals.append {env env' : List (String × Val)} (h : Locals env) (h' : Locals env') :
    Locals (env ++ env') := by
  intro pair hmem
  rcases List.mem_append.1 hmem with hmem | hmem
  · exact h pair hmem
  · exact h' pair hmem

theorem IsLocal.head {name : String} (h : IsLocal name) :
    name.toList.head? ∈ [some 'v', some 'a', some 'f'] := by
  obtain ⟨stem, hstem, i, rfl⟩ := h
  rw [String.toList_append]
  simp only [List.mem_cons, List.not_mem_nil, or_false] at hstem
  rcases hstem with rfl | rfl | rfl
  · exact List.mem_cons_self ..
  · exact List.mem_cons_of_mem _ (List.mem_cons_self ..)
  · exact List.mem_cons_of_mem _ (List.mem_cons_of_mem _ (List.mem_cons_self ..))

theorem Locals.lookup_eq_none {env : List (String × Val)} (h : Locals env) {name : String}
    (hhead : name.toList.head? ∈ [some 'J', some 'e', some 'd']) : env.lookup name = none := by
  refine Members.lookup_eq_none_of_forall_ne fun pair hmem heq => ?_
  have hlocal := (h pair hmem).head
  rw [← heq] at hlocal
  revert hhead hlocal
  generalize name.toList.head? = head
  simp only [List.mem_cons, List.not_mem_nil, or_false]
  rintro (rfl | rfl | rfl) <;> simp

/-! ## New variables -/

/-- What every step of a stateful walk through a list gives, in whatever state, the walk gives. -/
theorem forall₂_mapM_state {α β σ : Type} {R : α → β → Prop} {f : α → StateM σ β} {as : List α}
    (h : ∀ a ∈ as, ∀ state, R a (f a state).1) (state : σ) :
    List.Forall₂ R as (as.mapM f state).1 := by
  induction as generalizing state with
  | nil => exact .nil
  | cons a as ih =>
    rw [List.forall_mem_cons] at h
    rw [List.mapM_cons]
    exact .cons (h.1 state) (ih h.2 (f a state).2)

/-- The variables that a definition gets for the members of a list, from a function for new
variables that counts them. -/
theorem mapM_fresh {α : Type} {fresh : StateM Names String} {stem : String} {count : Names → Nat}
    (hname : ∀ names, (fresh names).1 = stem ++ toString (count names))
    (hcount : ∀ names, count (fresh names).2 = count names + 1) (as : List α) (names : Names) :
    ((as.mapM fun _ => fresh) names).1 =
      (List.range as.length).map fun i => stem ++ toString (count names + i) := by
  induction as generalizing names with
  | nil => rfl
  | cons a as ih =>
    rw [List.mapM_cons, List.length_cons, List.range_succ_eq_map, List.map_cons, List.map_map]
    show (fresh names).1 :: ((as.mapM fun _ => fresh) (fresh names).2).1 = _
    rw [ih, hname, hcount]
    refine congrArg _ (List.map_congr_left fun i _ => ?_)
    show stem ++ toString (count names + 1 + i) = stem ++ toString (count names + (i + 1))
    rw [Nat.add_assoc, Nat.add_comm 1 i]

theorem nodup_map_range (stem : String) (k n : Nat) :
    ((List.range n).map fun i => stem ++ toString (k + i)).Nodup := by
  refine List.nodup_range.map fun i j h => ?_
  have hchars := congrArg String.toList h
  rw [String.toList_append, String.toList_append, List.append_cancel_left_eq,
    String.toList_inj] at hchars
  have hnumbers : k + i = k + j := Decimal.toString_injective hchars
  omega

/-! ## What the names mean -/

section

variable {schema : Schema} {env : List (String × Val)}

/-- **The functions of the libraries and the toolkit keep their meaning.** -/
theorem eval_builtin (hreserved : schema.NonReserved) (henv : Locals env) {name : String} {v : Val}
    (h : builtins.lookup name = some v) : eval schema.toElm env (.var name) = some v := by
  have hmem : name ∈ builtins.map Prod.fst :=
    List.mem_map.2 ⟨_, Members.mem_of_lookup_eq_some h, rfl⟩
  have hbody : body? schema.toElm name = none := by
    refine body?_eq_none fun other hother => ⟨?_, ?_⟩
    · rintro rfl
      exact hreserved other hother (codecsReserved_builtins.of_encoderName hmem)
    · rintro rfl
      exact hreserved other hother (codecsReserved_builtins.of_decoderName hmem)
  rw [eval_var_of_lookup_none (henv.lookup_eq_none (head_builtins name hmem)), resolve, hbody,
    if_neg (by simp), h]
  rfl

theorem eval_call_partial (hreserved : schema.NonReserved) (henv : Locals env) {name : String}
    {f : Builtin} (hname : builtins.lookup name = some (.builtin f [])) {arguments : List Expr}
    {vs : List Val} (hvs : arguments.mapM (eval schema.toElm env) = some vs)
    (hlength : vs.length < f.arity) :
    eval schema.toElm env (.call name arguments) = some (.builtin f vs) := by
  rw [eval_call (eval_builtin hreserved henv hname) hvs,
    foldlM_apply_builtin_of_lt (by simpa using hlength)]
  rfl

theorem eval_call_full (hreserved : schema.NonReserved) (henv : Locals env) {name : String}
    {f : Builtin} (hname : builtins.lookup name = some (.builtin f [])) {arguments : List Expr}
    {vs : List Val} (hvs : arguments.mapM (eval schema.toElm env) = some vs)
    (hlength : vs.length = f.arity) :
    eval schema.toElm env (.call name arguments) = call schema.toElm f vs := by
  rw [eval_call (eval_builtin hreserved henv hname) hvs, foldlM_apply_builtin hlength]

/-- The name of a codec is a reference to it. -/
theorem eval_global (henv : Locals env) {name : String} {body : Expr}
    (hhead : name.toList.head? ∈ [some 'J', some 'e', some 'd'])
    (hbody : body? schema.toElm name = some body) :
    eval schema.toElm env (.var name) = some (.global name) := by
  rw [eval_var_of_lookup_none (henv.lookup_eq_none hhead), resolve, hbody]
  rfl

theorem eval_encoderName (henv : Locals env) {name : String} (hname : schema.contains name) :
    eval schema.toElm env (.var (encoderName name)) = some (.global (encoderName name)) := by
  obtain ⟨d, hget⟩ := Option.isSome_iff_exists.1 hname
  refine eval_global henv ?_ (body?_encoderName hget)
  rw [head_encoderName]
  decide

theorem eval_decoderName (henv : Locals env) {name : String} (hname : schema.contains name) :
    eval schema.toElm env (.var (decoderName name)) = some (.global (decoderName name)) := by
  obtain ⟨d, hget⟩ := Option.isSome_iff_exists.1 hname
  refine eval_global henv ?_ (body?_decoderName hget)
  rw [head_decoderName]
  decide

theorem apply_encoderName {name : String} {d : TypeDef} (hget : schema.get? name = some d)
    {f : Val} (hf : eval schema.toElm [] (encoderBody d) = some f) (argument : Val) :
    apply schema.toElm (.global (encoderName name)) argument = apply schema.toElm f argument := by
  rw [apply, body?_encoderName hget]
  show (eval schema.toElm [] (encoderBody d)).bind _ = _
  rw [hf]
  rfl

theorem run_decoderName {name : String} {d : TypeDef} (hget : schema.get? name = some d)
    {v : Val} (hv : eval schema.toElm [] (decoderBody d) = some v) (json : Json) :
    run schema.toElm (.global (decoderName name)) json = run schema.toElm v json := by
  rw [run, body?_decoderName hget]
  show (eval schema.toElm [] (decoderBody d)).bind _ = _
  rw [hv]
  rfl

end

/-! ## Constructors -/

/-- The constructor with a name that a definition introduces. -/
def constructorOf (name : String) : TypeDef → Option Val
  | .custom _ ctors => if name ∈ ctors.map Ctor.name then some (.ctor name []) else none
  | .alias other (.record fields) =>
    if other = name then some (.recordCtor (fields.map Prod.fst) []) else none
  | .alias _ _ => none

theorem mem_constructors_of_constructorOf {name : String} {d : TypeDef} {v : Val}
    (h : constructorOf name d = some v) : name ∈ d.constructors := by
  cases d with
  | custom other ctors =>
    rw [constructorOf] at h
    split at h
    · assumption
    · cases h
  | «alias» other type =>
    cases type with
    | record fields =>
      rw [constructorOf] at h
      split at h
      next heq => exact List.mem_singleton.2 heq.symm
      · cases h
    | _ => cases h

theorem names_fieldTypes (fields : List (String × Ty)) :
    (fieldTypes fields).map Prod.fst = fields.map Prod.fst := by
  induction fields with
  | nil => rfl
  | cons field rest ih =>
    rw [fieldTypes, List.map_cons, List.map_cons, ih]

theorem constructor?_types (defs : List TypeDef) (name : String) :
    constructor? (defs.map TypeDef.toElm) name = defs.findSome? (constructorOf name) := by
  rw [constructor?, List.findSome?_map]
  refine congrArg (fun f => defs.findSome? f) (funext fun d => ?_)
  cases d with
  | custom other ctors =>
    simp only [Function.comp_apply, TypeDef.toElm, constructorOf, List.map_map]
    rfl
  | «alias» other type =>
    cases type with
    | record fields =>
      simp only [Function.comp_apply, TypeDef.toElm, Ty.toElm, constructorOf, names_fieldTypes]
    | _ => rfl

theorem constructor?_codecs (defs : List TypeDef) (name : String) :
    constructor? (defs.flatMap codecs) name = none := by
  rw [constructor?, List.findSome?_eq_none_iff]
  intro decl hmem
  obtain ⟨d, -, hdecl⟩ := List.mem_flatMap.1 hmem
  simp only [codecs, List.mem_cons, List.not_mem_nil, or_false] at hdecl
  rcases hdecl with rfl | rfl
  · rfl
  · rfl

/-- The constructors of the module are those of the definitions. -/
theorem constructor?_toElm (schema : Schema) (name : String) :
    constructor? schema.toElm name = schema.defs.findSome? (constructorOf name) := by
  rw [constructor?, Schema.toElm, List.findSome?_append, ← constructor?, ← constructor?,
    constructor?_types, constructor?_codecs, Option.or_none]

/-- If no two constructors have one name, the constructor with a name is that of the definition
which introduces it. -/
theorem findSome?_constructorOf {defs : List TypeDef}
    (hdistinct : (defs.flatMap TypeDef.constructors).Nodup) {d : TypeDef} (hmem : d ∈ defs)
    {name : String} {v : Val} (hd : constructorOf name d = some v) :
    defs.findSome? (constructorOf name) = some v := by
  induction defs with
  | nil => cases hmem
  | cons first rest ih =>
    rw [List.flatMap_cons, List.nodup_append] at hdistinct
    rw [List.findSome?_cons]
    rcases List.mem_cons.1 hmem with rfl | hmem
    · rw [hd]
    · cases hfirst : constructorOf name first with
      | none => exact ih hdistinct.2.1 hmem
      | some w =>
        have hrest : name ∈ rest.flatMap TypeDef.constructors :=
          List.mem_flatMap.2 ⟨d, hmem, mem_constructors_of_constructorOf hd⟩
        exact absurd rfl
          (hdistinct.2.2 name (mem_constructors_of_constructorOf hfirst) name hrest)

theorem isUpperName_eq_false {name : String} {c : Char} (hhead : name.toList.head? = some c)
    (hc : (c.isUpper || 128 ≤ c.toNat) = false) : isUpperName name = false := by
  obtain ⟨cs, hchars⟩ := List.head?_eq_some_iff.1 hhead
  rw [isUpperName, isNameWith, hchars]
  simp only [hc, Bool.false_and]

theorem builtins_not_upper : ∀ name ∈ builtins.map Prod.fst, isUpperName name = false := by
  decide

/-- **The name of a constructor means that constructor.** -/
theorem eval_constructor {schema : Schema} (hdistinct : schema.constructors.Nodup)
    {d : TypeDef} (hmem : d ∈ schema.defs) {name : String} (hname : isUpperName name) {v : Val}
    (hd : constructorOf name d = some v) : eval schema.toElm [] (.var name) = some v := by
  have hbody : body? schema.toElm name = none := by
    refine body?_eq_none fun other hother => ⟨?_, ?_⟩
    · rintro rfl
      rw [isUpperName_eq_false (head_encoderName other) (by decide)] at hname
      cases hname
    · rintro rfl
      rw [isUpperName_eq_false (head_decoderName other) (by decide)] at hname
      cases hname
  have hbuiltin : builtins.lookup name = none := by
    refine Members.lookup_eq_none_of_forall_ne fun pair hpair heq => ?_
    rw [heq, builtins_not_upper pair.1 (List.mem_map_of_mem hpair)] at hname
    cases hname
  rw [eval_var_of_lookup_none rfl, resolve, hbody, if_neg (by simp), hbuiltin, constructor?_toElm,
    findSome?_constructorOf hdistinct hmem hd]
  rfl

end Elm
end ElmWire
