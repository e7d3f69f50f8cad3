import ElmWire.Elm.Toolkit
import ElmWire.Elm.Tree
import ElmWire.Value
import ElmWire.Json.Basic
import ElmWire.Proofs.Parts

/-!
# Values of Elm code

The values that Elm code computes with, and the meaning of what generated code calls but does not
define: the functions of `Json.Encode` and `Json.Decode`, and the toolkit that every generated
module contains.

* `Val` — the values.  Constructors are free: a constructor that is applied keeps its arguments.
  A function of the libraries or the toolkit keeps its arguments until it has all of them
  (`Builtin.arity`).
* `Decoder` — decoders are data too, since Elm has no other way to look at them than to run them.
* `build` — the result of those functions that apply none of their arguments.
* `builtins` — what each name means.

A message value is a value of Elm too (`Val.ofValue`).
-/

set_option autoImplicit false
namespace ElmWire.Elm

/-! ## Values -/

/-- The functions that generated code calls but does not define, and those that these use. -/
inductive Builtin where
  -- `Json.Encode`
  | jsonBool | jsonInt | jsonFloat | jsonString | jsonList | jsonObject
  -- The encoders of the toolkit
  | encodeUnit | encodeChar | encodeTuple2 | encodeTuple3 | encodeMaybe | encodeResult
  | encodeRecord | encodeVariant
  -- `Json.Decode`
  | list | lazy | succeed
  /-- The function that combines `n` decoders. -/
  | map (n : Nat)
  -- The decoders of the toolkit
  | decodeTuple2 | decodeTuple3 | decodeMaybe | decodeResult | decodeRecordField
  | decodeVariant | decodeVariantArg | decodeCustomType | decodeAndMap
  /-- The operator `|>`. -/
  | forward
  | makePair | makeTriple
  /-- The function inside `decodeCustomType`, from the name of a constructor to its decoder. -/
  | pickVariant
  /-- The function inside `decodeChar`, from a string to a decoder of its only character. -/
  | pickChar
  deriving DecidableEq

mutual

/-- A value. -/
inductive Val where
  | unit
  | bool (b : Bool)
  | int (n : Int)
  | float (x : Float)
  | char (c : Char)
  | string (s : String)
  | list (items : List Val)
  | tuple (items : List Val)
  | record (fields : List (String × Val))
  /-- A constructor of a custom type with the arguments it has got. -/
  | ctor (name : String) (arguments : List Val)
  /-- The constructor of a record alias with the arguments it has got. -/
  | recordCtor (fields : List String) (arguments : List Val)
  | json (json : Json)
  | closure (env : List (String × Val)) (params : List Pattern) (body : Expr)
  | builtin (function : Builtin) (arguments : List Val)
  /-- A value of the module, by name. -/
  | global (name : String)
  | decoder (decoder : Decoder)

/-- A decoder. -/
inductive Decoder where
  | bool
  | int
  | float
  | string
  | list (item : Val)
  | field (name : String) (decoder : Val)
  | index (i : Nat) (decoder : Val)
  | map (function : Val) (decoders : List Val)
  | andThen (function : Val) (decoder : Val)
  | lazy (thunk : Val)
  | succeed (value : Val)
  | fail (message : String)

end

mutual

/-- A message value on the Elm side. -/
def Val.ofValue : Value → Val
  | .unit => .unit
  | .bool b => .bool b
  | .int n => .int n
  | .float x => .float x
  | .char c => .char c
  | .string s => .string s
  | .list items => .list (ofValues items)
  | .tuple items => .tuple (ofValues items)
  | .record fields => .record (ofFields fields)
  | .variant name arguments => .ctor name (ofValues arguments)

/-- Message values on the Elm side. -/
def ofValues : List Value → List Val
  | [] => []
  | value :: rest => Val.ofValue value :: ofValues rest

/-- The fields of a record on the Elm side. -/
def ofFields : List (String × Value) → List (String × Val)
  | [] => []
  | (name, value) :: rest => (name, Val.ofValue value) :: ofFields rest

end

theorem ofValues_eq (values : List Value) : ofValues values = values.map Val.ofValue := by
  induction values with
  | nil => rw [ofValues]; rfl
  | cons value rest ih => rw [ofValues, ih]; rfl

theorem ofFields_eq (fields : List (String × Value)) :
    ofFields fields = fields.map fun field => (field.1, Val.ofValue field.2) := by
  induction fields with
  | nil => rw [ofFields]; rfl
  | cons field rest ih => rw [ofFields, ih]; rfl

theorem eq_of_map_eq_map {α β : Type} {f : α → β} {as bs : List α}
    (hf : ∀ a ∈ as, ∀ b, f a = f b → a = b) (h : as.map f = bs.map f) : as = bs := by
  induction as generalizing bs with
  | nil => exact (List.map_eq_nil_iff.1 h.symm).symm
  | cons a as ih =>
    rw [List.forall_mem_cons] at hf
    cases bs with
    | nil => cases h
    | cons b bs =>
      rw [List.map_cons, List.map_cons, List.cons.injEq] at h
      rw [hf.1 b h.1, ih hf.2 h.2]

/-- **Different message values are different in Elm.** -/
theorem Val.ofValue_injective : Function.Injective Val.ofValue := by
  intro v
  induction v using Value.induction_parts with
  | h v ih =>
    intro w hvw
    cases v with
    | list items =>
      cases w with
      | list others =>
        rw [Val.ofValue, Val.ofValue, ofValues_eq, ofValues_eq, Val.list.injEq] at hvw
        exact congrArg _ (eq_of_map_eq_map (fun item hitem other => @ih item hitem other) hvw)
      | _ => cases hvw
    | tuple items =>
      cases w with
      | tuple others =>
        rw [Val.ofValue, Val.ofValue, ofValues_eq, ofValues_eq, Val.tuple.injEq] at hvw
        exact congrArg _ (eq_of_map_eq_map (fun item hitem other => @ih item hitem other) hvw)
      | _ => cases hvw
    | variant name arguments =>
      cases w with
      | variant other others =>
        rw [Val.ofValue, Val.ofValue, ofValues_eq, ofValues_eq, Val.ctor.injEq] at hvw
        obtain ⟨rfl, hvw⟩ := hvw
        exact congrArg _ (eq_of_map_eq_map (fun item hitem other => @ih item hitem other) hvw)
      | _ => cases hvw
    | record fields =>
      cases w with
      | record others =>
        rw [Val.ofValue, Val.ofValue, ofFields_eq, ofFields_eq, Val.record.injEq] at hvw
        refine congrArg _ (eq_of_map_eq_map (fun field hfield other h => ?_) hvw)
        obtain ⟨hname, hvalue⟩ := Prod.mk.inj h
        exact Prod.ext hname (ih field.2 (List.mem_map_of_mem hfield) hvalue)
      | _ => cases hvw
    | _ =>
      cases w with
      | _ => cases hvw <;> rfl

/-! ## Calling without evaluating

Most functions that generated code calls put their arguments together without applying any of
them. -/

/-- How many arguments a function takes. -/
def Builtin.arity : Builtin → Nat
  | .jsonList | .encodeMaybe | .encodeVariant | .decodeTuple2 | .decodeResult | .decodeVariant
  | .decodeVariantArg | .decodeAndMap | .forward | .makePair | .pickVariant => 2
  | .encodeTuple2 | .encodeResult | .decodeTuple3 | .decodeRecordField | .makeTriple => 3
  | .encodeTuple3 => 4
  | .map n => n + 1
  | _ => 1

/-- The JSON that a value is. -/
def Val.json? : Val → Option Json
  | .json j => some j
  | _ => none

/-- The member of an object that a pair of a name and JSON is. -/
def Val.member? : Val → Option (String × Json)
  | .tuple [.string name, .json j] => some (name, j)
  | _ => none

/-- The name and the decoder of a constructor that a pair is. -/
def Val.variant? : Val → Option (String × Val)
  | .tuple [.string name, d] => some (name, d)
  | _ => none

/-- `variantArgKey` of the toolkit. -/
def variantArgKey (index : Int) : String := Wire.argStem ++ toString index

/-- `encodeVariant` of the toolkit. -/
def encodeVariant (name : String) (arguments : List Json) : Val :=
  .json (.object (Members.ofList ((Wire.variantTag, .string name) ::
    arguments.mapIdx fun i argument => (variantArgKey i, argument))))

/-- `decodeVariantArg` of the toolkit. -/
def decodeVariantArg (index : Int) (decoder : Val) : Val :=
  .decoder (.field (variantArgKey index) decoder)

/-- `decodeCustomType` of the toolkit: the tag is read first and chooses the decoder. -/
def decodeCustomType (variants : List Val) : Val :=
  .decoder (.andThen (.builtin .pickVariant [.list variants])
    (.decoder (.field Wire.variantTag (.decoder .string))))

/-- `decodeVariant` of the toolkit. -/
def decodeVariant (name : String) (decoder : Val) : Val := .tuple [.string name, decoder]

/-- The first decoder with a name, among those of the constructors of a type. -/
def pickVariant (variants : List (String × Val)) (name : String) : Val :=
  match variants.filter fun variant => variant.1 = name with
  | (_, decoder) :: _ => decoder
  | [] => .decoder (.fail ("Unknown variant \"" ++ name ++ "\", expected one of: " ++
      String.intercalate ", " (variants.map Prod.fst)))

/-- The decoder that succeeds with the only character of a string. -/
def pickChar (s : String) : Val :=
  match s.toList with
  | [c] => .decoder (.succeed (.char c))
  | _ => .decoder (.fail ("Expected exactly one character but found " ++ s))

/-- The result of calling a function that applies none of its arguments. -/
def build : Builtin → List Val → Option Val
  | .jsonBool, [.bool b] => some (.json (.bool b))
  | .jsonInt, [.int n] => some (.json (.number (.int n)))
  | .jsonFloat, [.float x] => some (.json (.number (.float x)))
  | .jsonString, [.string s] => some (.json (.string s))
  | .jsonObject, [.list pairs] | .encodeRecord, [.list pairs] =>
    return .json (.object (Members.ofList (← pairs.mapM Val.member?)))
  | .encodeUnit, [.unit] => some (encodeVariant Wire.unitTag [])
  | .encodeChar, [.char c] => some (.json (.string c.toString))
  | .encodeVariant, [.string name, .list arguments] =>
    return encodeVariant name (← arguments.mapM Val.json?)
  | .list, [item] => some (.decoder (.list item))
  | .lazy, [thunk] => some (.decoder (.lazy thunk))
  | .succeed, [value] => some (.decoder (.succeed value))
  | .map _, function :: decoders => some (.decoder (.map function decoders))
  | .decodeTuple2, [a, b] =>
    some (.decoder (.map (.builtin .makePair []) [.decoder (.index 0 a), .decoder (.index 1 b)]))
  | .decodeTuple3, [a, b, c] =>
    some (.decoder (.map (.builtin .makeTriple [])
      [.decoder (.index 0 a), .decoder (.index 1 b), .decoder (.index 2 c)]))
  | .decodeMaybe, [a] =>
    some (decodeCustomType [
      decodeVariant Wire.just (.decoder (.map (.ctor "Just" []) [decodeVariantArg 0 a])),
      decodeVariant Wire.nothing (.decoder (.succeed (.ctor "Nothing" [])))])
  | .decodeResult, [e, a] =>
    some (decodeCustomType [
      decodeVariant Wire.ok (.decoder (.map (.ctor "Ok" []) [decodeVariantArg 0 a])),
      decodeVariant Wire.err (.decoder (.map (.ctor "Err" []) [decodeVariantArg 0 e]))])
  | .decodeRecordField, [.string name, a, function] =>
    some (.decoder (.map (.builtin .forward []) [.decoder (.field name a), function]))
  | .decodeVariant, [.string name, decoder] => some (decodeVariant name decoder)
  | .decodeVariantArg, [.int index, decoder] => some (decodeVariantArg index decoder)
  | .decodeCustomType, [.list variants] => some (decodeCustomType variants)
  | .decodeAndMap, [a, function] => some (.decoder (.map (.builtin .forward []) [a, function]))
  | .makePair, [a, b] => some (.tuple [a, b])
  | .makeTriple, [a, b, c] => some (.tuple [a, b, c])
  | .pickVariant, [.list variants, .string name] =>
    return pickVariant (← variants.mapM Val.variant?) name
  | .pickChar, [.string s] => some (pickChar s)
  | _, _ => none

/-- What the names mean that a module does not define itself. -/
def builtins : List (String × Val) := [
  ("Json.Encode.bool", .builtin .jsonBool []),
  ("Json.Encode.int", .builtin .jsonInt []),
  ("Json.Encode.float", .builtin .jsonFloat []),
  ("Json.Encode.string", .builtin .jsonString []),
  ("Json.Encode.list", .builtin .jsonList []),
  ("Json.Encode.object", .builtin .jsonObject []),
  (Toolkit.encodeUnit, .builtin .encodeUnit []),
  (Toolkit.encodeChar, .builtin .encodeChar []),
  (Toolkit.encodeTuple2, .builtin .encodeTuple2 []),
  (Toolkit.encodeTuple3, .builtin .encodeTuple3 []),
  (Toolkit.encodeMaybe, .builtin .encodeMaybe []),
  (Toolkit.encodeResult, .builtin .encodeResult []),
  (Toolkit.encodeRecord, .builtin .encodeRecord []),
  (Toolkit.encodeVariant, .builtin .encodeVariant []),
  ("Json.Decode.bool", .decoder .bool),
  ("Json.Decode.int", .decoder .int),
  ("Json.Decode.float", .decoder .float),
  ("Json.Decode.string", .decoder .string),
  ("Json.Decode.list", .builtin .list []),
  ("Json.Decode.lazy", .builtin .lazy []),
  ("Json.Decode.succeed", .builtin .succeed []),
  ("Json.Decode.map", .builtin (.map 1) []),
  ("Json.Decode.map2", .builtin (.map 2) []),
  ("Json.Decode.map3", .builtin (.map 3) []),
  ("Json.Decode.map4", .builtin (.map 4) []),
  ("Json.Decode.map5", .builtin (.map 5) []),
  ("Json.Decode.map6", .builtin (.map 6) []),
  ("Json.Decode.map7", .builtin (.map 7) []),
  ("Json.Decode.map8", .builtin (.map 8) []),
  (Toolkit.decodeUnit,
    decodeCustomType [decodeVariant Wire.unitTag (.decoder (.succeed .unit))]),
  (Toolkit.decodeChar, .decoder (.andThen (.builtin .pickChar []) (.decoder .string))),
  (Toolkit.decodeTuple2, .builtin .decodeTuple2 []),
  (Toolkit.decodeTuple3, .builtin .decodeTuple3 []),
  (Toolkit.decodeMaybe, .builtin .decodeMaybe []),
  (Toolkit.decodeResult, .builtin .decodeResult []),
  (Toolkit.decodeRecordField, .builtin .decodeRecordField []),
  (Toolkit.decodeVariant, .builtin .decodeVariant []),
  (Toolkit.decodeVariantArg, .builtin .decodeVariantArg []),
  (Toolkit.decodeCustomType, .builtin .decodeCustomType []),
  (Toolkit.decodeAndMap, .builtin .decodeAndMap [])]

end ElmWire.Elm
