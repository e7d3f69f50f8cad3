import Mathlib.Data.List.Nodup
import ElmWire.Proofs.Decimal.Grammar
import ElmWire.Proofs.Members
import ElmWire.Wire.Codec

/-!
# Envelopes

A tagged value travels as an object with its constructor under `variantTag` and its arguments under
`argKey 0`, `argKey 1`, … .  The keys are all different, whatever the constructor and however many
arguments there are, so nothing that is put into an envelope hides anything else: looking up the tag
or an argument gives back what was put there (`lookup_envelope_tag`, `lookup_envelope_arg`).

So **an envelope loses nothing** (`envelope_lossless`): it has one member for the constructor and
one for each argument, put there under a key that was not taken, and different constructors or
arguments make different envelopes (`envelope_inj`).
-/

set_option autoImplicit false
namespace ElmWire.Wire

theorem argKey_injective : Function.Injective argKey := by
  intro i k h
  have hchars := congrArg String.toList h
  rw [argKey, argKey, String.toList_append, String.toList_append, List.append_cancel_left_eq,
    String.toList_inj] at hchars
  exact Decimal.toString_injective hchars

theorem argKey_ne_variantTag (i : Nat) : argKey i ≠ variantTag := by
  intro h
  have hhead := congrArg (fun s => s.toList.head?) h
  simp only [argKey, String.toList_append] at hhead
  have hdiffer : some '_' = some 'v' := hhead
  exact absurd hdiffer (by decide)

/-- The members of an envelope in the order in which they are put in. -/
def envelopeMembers (name : String) (arguments : List Json) : List (String × Json) :=
  (variantTag, .string name) :: arguments.mapIdx fun i argument => (argKey i, argument)

theorem envelope_eq (name : String) (arguments : List Json) :
    envelope name arguments = .object (Members.ofList (envelopeMembers name arguments)) := rfl

theorem map_fst_envelopeMembers (name : String) (arguments : List Json) :
    (envelopeMembers name arguments).map Prod.fst =
      variantTag :: (List.range arguments.length).map argKey := by
  rw [envelopeMembers, List.map_cons]
  congr 1
  refine List.ext_getElem (by simp) fun i h₁ h₂ => ?_
  simp

/-- No two members of an envelope have the same key. -/
theorem nodup_envelopeMembers (name : String) (arguments : List Json) :
    ((envelopeMembers name arguments).map Prod.fst).Nodup := by
  rw [map_fst_envelopeMembers, List.nodup_cons]
  refine ⟨fun hmem => ?_, List.nodup_range.map argKey_injective⟩
  obtain ⟨i, -, h⟩ := List.mem_map.1 hmem
  exact argKey_ne_variantTag i h

theorem lookup_envelope_tag (name : String) (arguments : List Json) :
    (Members.ofList (envelopeMembers name arguments)).lookup variantTag = some (.string name) := by
  rw [Members.lookup_ofList_of_nodup (nodup_envelopeMembers name arguments), envelopeMembers]
  exact List.lookup_cons_self

theorem lookup_envelope_arg (name : String) {arguments : List Json} {i : Nat} {argument : Json}
    (h : arguments[i]? = some argument) :
    (Members.ofList (envelopeMembers name arguments)).lookup (argKey i) = some argument := by
  have hnodup := nodup_envelopeMembers name arguments
  rw [Members.lookup_ofList_of_nodup hnodup]
  refine Members.lookup_eq_some_of_mem hnodup (List.mem_cons_of_mem _ ?_)
  rw [List.mem_mapIdx]
  obtain ⟨hlt, heq⟩ := List.getElem?_eq_some_iff.1 h
  exact ⟨i, hlt, by rw [heq]⟩

/-! ## Nothing is lost -/

theorem mem_envelopeMembers_iff {name : String} {arguments : List Json} {key : String}
    {json : Json} : (key, json) ∈ envelopeMembers name arguments ↔
      key = variantTag ∧ json = .string name ∨ ∃ i, key = argKey i ∧ arguments[i]? = some json := by
  rw [envelopeMembers, List.mem_cons, Prod.mk.injEq, List.mem_mapIdx]
  refine or_congr_right ⟨?_, ?_⟩
  · rintro ⟨i, hi, heq⟩
    obtain ⟨rfl, rfl⟩ := Prod.mk.inj heq
    exact ⟨i, rfl, List.getElem?_eq_getElem hi⟩
  · rintro ⟨i, rfl, hi⟩
    obtain ⟨hlt, rfl⟩ := List.getElem?_eq_some_iff.1 hi
    exact ⟨i, hlt, rfl⟩

/-- Putting the members into an object loses none of them. -/
theorem perm_envelope (name : String) (arguments : List Json) :
    (Members.ofList (envelopeMembers name arguments)).Perm (envelopeMembers name arguments) :=
  Members.perm_ofList (nodup_envelopeMembers name arguments)

/-- Under the key of a position is the argument there, if there is one. -/
theorem lookup_envelope_argKey (name : String) (arguments : List Json) (i : Nat) :
    (Members.ofList (envelopeMembers name arguments)).lookup (argKey i) = arguments[i]? := by
  cases h : arguments[i]? with
  | some argument => exact lookup_envelope_arg name h
  | none =>
    refine Members.lookup_eq_none_of_forall_ne fun pair hmem heq => ?_
    obtain ⟨key, json⟩ := pair
    obtain ⟨rfl, -⟩ | ⟨k, rfl, hk⟩ :=
      mem_envelopeMembers_iff.1 ((perm_envelope name arguments).mem_iff.1 hmem)
    · exact argKey_ne_variantTag i heq
    · rw [← argKey_injective heq, h] at hk
      cases hk

/-- **Envelopes differ where their contents do.** -/
theorem envelope_inj {name other : String} {arguments others : List Json} :
    envelope name arguments = envelope other others ↔ name = other ∧ arguments = others := by
  constructor
  · intro h
    rw [envelope_eq, envelope_eq] at h
    have hmembers := Json.object.inj h
    have htag : some (Json.string name) = some (.string other) := by
      rw [← lookup_envelope_tag name arguments, hmembers, lookup_envelope_tag]
    have harguments (i : Nat) : arguments[i]? = others[i]? := by
      rw [← lookup_envelope_argKey name arguments, hmembers, lookup_envelope_argKey]
    exact ⟨Json.string.inj (Option.some.inj htag), List.ext_getElem? harguments⟩
  · rintro ⟨rfl, rfl⟩
    rfl

/-- One more argument is put in last. -/
theorem envelopeMembers_append_singleton (name : String) (arguments : List Json)
    (argument : Json) :
    envelopeMembers name (arguments ++ [argument]) =
      envelopeMembers name arguments ++ [(argKey arguments.length, argument)] := by
  rw [envelopeMembers, envelopeMembers, List.mapIdx_concat]
  rfl

/-- **An envelope loses nothing.**  Its members are one for the constructor and one for each
argument, in the order of their keys; only the same constructor and arguments make the same
envelope; and one more argument is put under a key that was not taken. -/
theorem envelope_lossless (name : String) (arguments : List Json) :
    ∃ members : Members Json, envelope name arguments = .object members ∧
      members.length = arguments.length + 1 ∧ Members.Ordered members ∧
      (∀ key json, (key, json) ∈ members ↔ key = variantTag ∧ json = .string name ∨
        ∃ i, key = argKey i ∧ arguments[i]? = some json) ∧
      (∀ other others, envelope other others = .object members ↔
        other = name ∧ others = arguments) ∧
      ∀ argument, members.lookup (argKey arguments.length) = none ∧
        envelope name (arguments ++ [argument]) =
          .object (Members.insert (argKey arguments.length) argument members) := by
  have hperm := perm_envelope name arguments
  refine ⟨_, envelope_eq name arguments, ?_, Members.ordered_ofList _, fun key json => ?_,
    fun other others => envelope_inj, fun argument => ⟨?_, ?_⟩⟩
  · rw [hperm.length_eq, envelopeMembers, List.length_cons, List.length_mapIdx]
  · rw [hperm.mem_iff, mem_envelopeMembers_iff]
  · rw [lookup_envelope_argKey, List.getElem?_eq_none (Nat.le_refl _)]
  · rw [envelope_eq, envelopeMembers_append_singleton, Members.ofList_append_singleton]

end ElmWire.Wire
