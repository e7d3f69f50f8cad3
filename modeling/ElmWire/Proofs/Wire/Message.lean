import ElmWire.Proofs.Json.Printing
import ElmWire.Proofs.Wire.RoundTrip
import ElmWire.Wire.Message

/-!
# Messages survive as text

Between the encoder and the decoder, a message is text.  What the encoder makes is such that nothing
is lost there: the members of its objects are in order, so reading them does not change them, and
its integers are read back from their digits (`Sent`).

* `decode_encodeMessage` — **the text of a message is read as the JSON that was encoded, and decoded
  to the value that was sent**, without the fields that its type does not declare.

For floats this takes that a float is read back from its own text (`Json.FloatsReadBack`).
-/

set_option autoImplicit false
namespace ElmWire

/-- Every float in the value is read back from its own text. -/
def Json.FloatsReadBack (json : Json) : Prop :=
  json.Numbers fun n => ∀ x, n = .float x →
    Json.parse? (Json.number (.float x)).compact = some (.number (.float x))

theorem Json.Numbers.imp₂ {P Q R : Json.Number → Prop} {json : Json} (hp : json.Numbers P)
    (hq : json.Numbers Q) (h : ∀ n, P n → Q n → R n) : json.Numbers R := by
  induction hp with
  | intro hnumber _ ih =>
    obtain ⟨hnumber', hparts⟩ := Json.numbers_iff.1 hq
    exact .intro (fun n heq => h n (hnumber n heq) (hnumber' n heq))
      fun part hpart => ih part hpart (hparts part hpart)

namespace Wire

/-! ## What is sent -/

/-- JSON as the encoder makes it: members are in order, and integers are safe. -/
structure Sent (json : Json) : Prop where
  ordered : json.Ordered
  safe : json.Numbers fun n => ∀ i, n = .int i → isSafeInt i

theorem Sent.leaf {json : Json} (hparts : json.parts = [])
    (hobject : ∀ members, json ≠ .object members)
    (hnumber : ∀ n, json ≠ .number n) : Sent json :=
  ⟨.leaf hparts hobject, .leaf hparts hnumber⟩

theorem sent_string (s : String) : Sent (.string s) := .leaf rfl (by simp) (by simp)

theorem sent_int {n : Int} (h : isSafeInt n) : Sent (.number (.int n)) :=
  ⟨.leaf rfl (by simp), Json.numbers_number.2 fun i heq => by cases heq; exact h⟩

theorem sent_float (x : Float) : Sent (.number (.float x)) :=
  ⟨.leaf rfl (by simp), Json.numbers_number.2 fun i heq => by cases heq⟩

theorem sent_array {items : List Json} (h : ∀ item ∈ items, Sent item) : Sent (.array items) :=
  ⟨Json.ordered_array.2 fun item hmem => (h item hmem).ordered,
    Json.numbers_array.2 fun item hmem => (h item hmem).safe⟩

theorem sent_object {members : List (String × Json)} (h : ∀ member ∈ members, Sent member.2) :
    Sent (.object (Members.ofList members)) := by
  have hmem : ∀ member ∈ Members.ofList members, Sent member.2 := fun member hmember =>
    h member (Members.mem_of_mem_ofList hmember)
  exact ⟨Json.ordered_object.2 ⟨Members.ordered_ofList members,
      fun member hmember => (hmem member hmember).ordered⟩,
    Json.numbers_object.2 fun member hmember => (hmem member hmember).safe⟩

theorem sent_envelope (name : String) {arguments : List Json}
    (h : ∀ argument ∈ arguments, Sent argument) : Sent (envelope name arguments) := by
  rw [envelope_eq]
  refine sent_object (List.forall_mem_cons.2 ⟨sent_string name, fun member hmember => ?_⟩)
  obtain ⟨i, hi, rfl⟩ := List.mem_mapIdx.1 hmember
  exact h _ (List.getElem_mem hi)

/-- The wire format has nothing else. -/
theorem sent_of_encodes {schema : Schema} {type : Ty} {value : Value} {json : Json}
    (h : Encodes schema type value json) : Sent json := by
  induction h with
  | unit | nothing => exact sent_envelope _ (by simp)
  | bool b => exact .leaf rfl (by simp) (by simp)
  | int hsafe => exact sent_int hsafe
  | float => exact sent_float _
  | char | string => exact sent_string _
  | list _ ih => exact sent_array (List.forall_mem_map.2 ih)
  | pair _ _ iha ihb => exact sent_array (by simp [iha, ihb])
  | triple _ _ _ iha ihb ihc => exact sent_array (by simp [iha, ihb, ihc])
  | record _ _ ih => exact sent_object (List.forall_mem_map.2 ih)
  | just _ ih | ok _ _ ih | err _ _ ih => exact sent_envelope _ (by simp [ih])
  | hop _ _ ih => exact ih
  | custom _ _ _ _ ih => exact sent_envelope _ (List.forall_mem_map.2 ih)

/-- What was sent is read back. -/
theorem Sent.parse?_compact {json : Json} (h : Sent json) (hfloats : json.FloatsReadBack)
    (hdepth : json.depth ≤ Json.nestingLimit) : Json.parse? json.compact = some json := by
  have hnumbers : json.Numbers Json.Number.ReadsBack := by
    refine h.safe.imp₂ hfloats fun n hsafe hfloat => ?_
    cases n with
    | int i =>
      obtain ⟨hlow, hhigh⟩ := isSafeInt_iff.1 (hsafe i rfl)
      exact Json.Number.readsBack_int (by omega) (by omega)
    | float x => exact Json.Number.readsBack_of_parse? (hfloat x rfl)
  rw [Json.parse?_compact hnumbers hdepth, Json.sorted_eq_self json h.ordered]

/-! ## Messages -/

/-- **What is sent as text arrives.**  Whatever characters a message contains, its text is read as
the JSON that was encoded, and that is decoded to the value without the fields that its type does
not declare. -/
theorem decode_encodeMessage {schema : Schema} (hdistinct : schema.DistinctFields) {name : String}
    {value : Value} (hordered : value.Ordered) {json : Json}
    (h : encodeNamed schema name value = .ok json) (hdepth : json.depth ≤ Json.nestingLimit)
    (hfloats : json.FloatsReadBack) :
    ∃ text, encodeMessage schema name value = .ok text ∧ Json.parse? text = some json ∧
      decodeNamed schema name json = .ok (value.declared schema (.named name)) := by
  have hencodes : Encodes schema (.named name) value json := encode_eq_ok_iff.1 h
  -- A reference has no record type of its own.
  have hname : (Ty.named name).DistinctFields := fun fields hmem => by simp [Ty.records] at hmem
  refine ⟨json.compact, ?_, (sent_of_encodes hencodes).parse?_compact hfloats hdepth,
    decode_of_encodes hdistinct hencodes hname hordered⟩
  rw [encodeMessage, h]
  rfl

/-- Notes with a number, a mark and a text. -/
def noteSchema : Schema :=
  ⟨[.alias "Note" (.record [("line", .int), ("mark", .char), ("text", .string)])]⟩

/-- The fields of a note: the least safe integer, a character beyond the 16-bit code units, and a
text with a quote, a backslash, a line break and a control character. -/
def noteFields : List (String × Value) :=
  [("line", .int (-9007199254740991)), ("mark", .char '😀'), ("text", .string "\"\\\n\x01é")]

/-- The note arrives character for character, without the field that is not declared. -/
theorem decode_encodeMessage_note :
    ∃ text json,
      encodeMessage noteSchema "Note" (.record (("hidden", .int 1) :: noteFields)) = .ok text ∧
      Json.parse? text = some json ∧
      decodeNamed noteSchema "Note" json = .ok (.record noteFields) := by
  have hdistinct : noteSchema.DistinctFields := by decide
  have hordered : (Value.record (("hidden", .int 1) :: noteFields)).Ordered := by
    have hfields : Members.Ordered (("hidden", Value.int 1) :: noteFields) := by decide
    have hmark : (Value.char '😀').Ordered := .leaf rfl (by simp)
    have htext : (Value.string "\"\\\n\x01é").Ordered := .leaf rfl (by simp)
    exact Value.ordered_record.2 ⟨hfields, by simp [noteFields, hmark, htext]⟩
  have hjson : encodeNamed noteSchema "Note" (.record (("hidden", .int 1) :: noteFields)) =
      .ok (.object [("line", .number (.int (-9007199254740991))), ("mark", .string "😀"),
        ("text", .string "\"\\\n\x01é")]) := rfl
  obtain ⟨text, hmessage, hparse, hdecode⟩ :=
    decode_encodeMessage hdistinct hordered hjson (by decide)
    (by simp [Json.FloatsReadBack])
  exact ⟨text, _, hmessage, hparse, hdecode⟩

end Wire
end ElmWire
