import Mathlib.Data.List.Nodup
import Mathlib.Data.List.Perm.Subperm
import Mathlib.Logic.Relation
import ElmWire.Proofs.Schema
import ElmWire.Wire.Shape

/-!
# Following references

`Schema.shape` follows aliases until it meets a type that is not one, and gives up after as many
aliases as the schema has definitions.  This file says what it finds without the bound.

## What is here

* `Schema.Resolves type hops shape` — following exactly `hops` aliases leads from the type to the
  shape.  There is at most one way to do so (`Resolves.unique`).
* `Schema.shape_eq_ok_iff` — **the bound costs nothing**: `Schema.shape` finds a shape exactly when
  some number of aliases leads to it.  The aliases on the way are all different, since each of them
  is a different number of hops away from the end, so there are no more of them than definitions.
* `Schema.Stuck` — following bare references from a name runs in a circle.  The search gives up at
  such names and nowhere else (`circular_of_stuck`, `stuck_of_circular`).
* `Schema.AliasesEnd` — no alias is, through bare references alone, an alias of itself.
* `Schema.exists_shape` — in such a schema every type over defined names comes down to a shape.
-/

set_option autoImplicit false
namespace ElmWire

open Wire

/-! ## Types at first sight -/

theorem Ty.eq_named_of_view {type : Ty} {name : String} (h : type.view = .name name) :
    type = .named name := by
  cases type <;> simp_all [Ty.view]

namespace Schema

/-- Following exactly `hops` aliases leads from a type to a shape. -/
inductive Resolves (schema : Schema) : Ty → Nat → Shape → Prop
  | here {type : Ty} {shape : Shape} (h : type.view = .shape shape) :
      Resolves schema type 0 shape
  | custom {name d : String} {ctors : List Ctor}
      (h : schema.get? name = some (.custom d ctors)) :
      Resolves schema (.named name) 0 (.tagged name ctors)
  | hop {name d : String} {type : Ty} {hops : Nat} {shape : Shape}
      (h : schema.get? name = some (.alias d type)) (rest : Resolves schema type hops shape) :
      Resolves schema (.named name) (hops + 1) shape

/-- There is only one way to follow references. -/
theorem Resolves.unique {schema : Schema} {type : Ty} {hops : Nat} {shape : Shape}
    (h : Resolves schema type hops shape) :
    ∀ {hops' : Nat} {shape' : Shape}, Resolves schema type hops' shape' →
      hops = hops' ∧ shape = shape' := by
  induction h with
  | here hview =>
    intro hops' shape' h'
    cases h' with
    | here hview' => exact ⟨rfl, by rw [hview] at hview'; exact View.shape.inj hview'⟩
    | custom _ => simp [Ty.view] at hview
    | hop _ _ => simp [Ty.view] at hview
  | custom hget =>
    intro hops' shape' h'
    cases h' with
    | here hview' => simp [Ty.view] at hview'
    | custom hget' => rw [hget] at hget'; cases hget'; exact ⟨rfl, rfl⟩
    | hop hget' _ => rw [hget] at hget'; cases hget'
  | hop hget _ ih =>
    intro hops' shape' h'
    cases h' with
    | here hview' => simp [Ty.view] at hview'
    | custom hget' => rw [hget] at hget'; cases hget'
    | hop hget' rest' =>
      rw [hget] at hget'
      cases hget'
      obtain ⟨rfl, rfl⟩ := ih rest'
      exact ⟨rfl, rfl⟩

/-! ## The bounded search finds nothing else -/

theorem resolves_of_shapeWithin {schema : Schema} {hops : Nat} {type : Ty} {shape : Shape}
    (h : schema.shapeWithin hops type = .ok shape) : ∃ k, Resolves schema type k shape := by
  fun_induction shapeWithin schema hops type with
  | case1 hops type found hview =>
    cases h
    exact ⟨0, .here hview⟩
  | case2 hops type name hview hget => cases h
  | case3 hops type name hview d ctors hget =>
    cases h
    cases Ty.eq_named_of_view hview
    exact ⟨0, .custom hget⟩
  | case4 type name hview d definition hget => cases h
  | case5 type name hview d definition hget hops ih =>
    cases Ty.eq_named_of_view hview
    obtain ⟨k, rest⟩ := ih h
    exact ⟨k + 1, .hop hget rest⟩

theorem shapeWithin_of_resolves {schema : Schema} {type : Ty} {k : Nat} {shape : Shape}
    (h : Resolves schema type k shape) :
    ∀ {hops : Nat}, k ≤ hops → schema.shapeWithin hops type = .ok shape := by
  induction h with
  | here hview =>
    intro hops _
    rw [shapeWithin.eq_def, hview]
  | custom hget =>
    intro hops _
    rw [shapeWithin.eq_def]
    simp only [Ty.view, hget]
  | hop hget _ ih =>
    intro hops hle
    obtain ⟨hops, rfl⟩ : ∃ m, hops = m + 1 := ⟨hops - 1, by omega⟩
    rw [shapeWithin.eq_def]
    simp only [Ty.view, hget]
    exact ih (by omega)

/-! ## The bound is enough -/

/-- The aliases that are passed on the way to a shape, of which there are as many as hops. -/
theorem Resolves.exists_passed {schema : Schema} {type : Ty} {hops : Nat} {shape : Shape}
    (h : Resolves schema type hops shape) :
    ∃ passed : List String, passed.length = hops ∧ passed.Nodup ∧ passed ⊆ schema.names ∧
      ∀ name ∈ passed, ∃ k ≤ hops, Resolves schema (.named name) k shape := by
  induction h with
  | here _ => exact ⟨[], rfl, by simp, by simp, by simp⟩
  | custom _ => exact ⟨[], rfl, by simp, by simp, by simp⟩
  | @hop name d type hops shape hget rest ih =>
    obtain ⟨passed, hlength, hnodup, hsub, hnear⟩ := ih
    have hall : Resolves schema (.named name) (hops + 1) shape := .hop hget rest
    -- The names further on are nearer to the end, so `name` is none of them.
    have hnew : name ∉ passed := by
      intro hmem
      obtain ⟨k, hk, hname⟩ := hnear name hmem
      have := (hall.unique hname).1
      omega
    refine ⟨name :: passed, by simp [hlength], List.nodup_cons.2 ⟨hnew, hnodup⟩, ?_, ?_⟩
    · exact List.cons_subset.2 ⟨mem_names_of_get? hget, hsub⟩
    · intro other hmem
      rcases List.mem_cons.1 hmem with rfl | hmem
      · exact ⟨hops + 1, Nat.le_refl _, hall⟩
      · obtain ⟨k, hk, hother⟩ := hnear other hmem
        exact ⟨k, by omega, hother⟩

theorem Resolves.hops_le {schema : Schema} {type : Ty} {hops : Nat} {shape : Shape}
    (h : Resolves schema type hops shape) : hops ≤ schema.defs.length := by
  obtain ⟨passed, hlength, hnodup, hsub, -⟩ := h.exists_passed
  have hle := (hnodup.subperm hsub).length_le
  rw [hlength, names, List.length_map] at hle
  exact hle

/-- Only a name can run in a circle of aliases, and the shape of a type is what the bounded search
finds, apart from the name that it reports then. -/
theorem shape_cases (schema : Schema) (type : Ty) :
    (∃ name last, type = .named name ∧
      schema.shapeWithin schema.defs.length type = .error (.circularAlias last) ∧
      schema.shape type = .error (.circularAlias name)) ∨
    (∀ last, schema.shapeWithin schema.defs.length type ≠ .error (.circularAlias last)) ∧
      schema.shape type = schema.shapeWithin schema.defs.length type := by
  by_cases hcircular : ∃ name last, type = .named name ∧
      schema.shapeWithin schema.defs.length type = .error (.circularAlias last)
  · obtain ⟨name, last, rfl, hlast⟩ := hcircular
    exact .inl ⟨name, last, rfl, hlast, shape.eq_1 schema name last hlast⟩
  · refine .inr ⟨fun last hlast => ?_, shape.eq_2 schema type fun last name hlast hname =>
      hcircular ⟨name, last, hname, hlast⟩⟩
    cases hview : type.view with
    | shape found => rw [shapeWithin.eq_def, hview] at hlast; cases hlast
    | name name => exact hcircular ⟨name, last, Ty.eq_named_of_view hview, hlast⟩

/-- **The bound costs nothing**: a shape is found exactly when following references leads to it. -/
theorem shape_eq_ok_iff {schema : Schema} {type : Ty} {shape : Shape} :
    schema.shape type = .ok shape ↔ ∃ hops, Resolves schema type hops shape := by
  constructor
  · intro h
    obtain ⟨_, _, _, _, hcircular⟩ | ⟨-, heq⟩ := schema.shape_cases type
    · cases hcircular.symm.trans h
    · exact resolves_of_shapeWithin (heq.symm.trans h)
  · rintro ⟨hops, h⟩
    have hfound := shapeWithin_of_resolves h h.hops_le
    obtain ⟨_, last, _, hlast, -⟩ | ⟨-, heq⟩ := schema.shape_cases type
    · cases hlast.symm.trans hfound
    · exact heq.trans hfound

/-- An alias comes down to what its definition comes down to. -/
theorem shape_named_of_alias {schema : Schema} {name d : String} {type : Ty} {shape : Shape}
    (hget : schema.get? name = some (.alias d type)) :
    schema.shape (.named name) = .ok shape ↔ schema.shape type = .ok shape := by
  rw [shape_eq_ok_iff, shape_eq_ok_iff]
  constructor
  · rintro ⟨hops, h⟩
    cases h with
    | here hview => simp [Ty.view] at hview
    | custom hget' => rw [hget] at hget'; cases hget'
    | hop hget' rest => rw [hget] at hget'; cases hget'; exact ⟨_, rest⟩
  · rintro ⟨hops, h⟩
    exact ⟨hops + 1, .hop hget h⟩

theorem shape_of_view {schema : Schema} {type : Ty} {shape : Shape}
    (hview : type.view = .shape shape) : schema.shape type = .ok shape :=
  shape_eq_ok_iff.2 ⟨0, .here hview⟩

theorem shape_of_custom {schema : Schema} {name d : String} {ctors : List Ctor}
    (hget : schema.get? name = some (.custom d ctors)) :
    schema.shape (.named name) = .ok (.tagged name ctors) :=
  shape_eq_ok_iff.2 ⟨0, .custom hget⟩

theorem shape_of_undefined {schema : Schema} {name : String} (hget : schema.get? name = none) :
    schema.shape (.named name) = .error (.undefinedType name) := by
  have hsearch : ∀ hops, schema.shapeWithin hops (.named name) = .error (.undefinedType name) := by
    intro hops
    rw [shapeWithin.eq_def]
    simp only [Ty.view, hget]
  obtain ⟨_, last, _, hlast, -⟩ | ⟨-, heq⟩ := schema.shape_cases (.named name)
  · cases hlast.symm.trans (hsearch _)
  · exact heq.trans (hsearch _)

/-! ## Schemas whose aliases end -/

/-- The definition of `name` is an alias that is nothing but a reference to `other`. -/
def BareAlias (schema : Schema) (name other : String) : Prop :=
  ∃ d, schema.get? name = some (.alias d (.named other))

/-- No alias is an alias of itself through bare references alone. -/
def AliasesEnd (schema : Schema) : Prop := ∀ name, ¬ Relation.TransGen schema.BareAlias name name

/-- Where the search gives up it has followed bare references from name to name. -/
theorem exists_chain_of_circular {schema : Schema} {hops : Nat} {type : Ty} {name : String}
    (h : schema.shapeWithin hops type = .error (.circularAlias name)) :
    ∃ passed : List String, passed.length = hops + 1 ∧ passed ⊆ schema.names ∧
      passed.IsChain schema.BareAlias ∧ ∀ first ∈ passed.head?, type = .named first := by
  fun_induction shapeWithin schema hops type with
  | case1 hops type found hview => cases h
  | case2 hops type name' hview hget => cases h
  | case3 hops type name' hview d ctors hget => cases h
  | case4 type first hview d definition hget =>
    cases Ty.eq_named_of_view hview
    exact ⟨[first], rfl, by simpa using mem_names_of_get? hget, by simp, by simp⟩
  | case5 type first hview d definition hget hops ih =>
    cases Ty.eq_named_of_view hview
    obtain ⟨passed, hlength, hsub, hchain, hhead⟩ := ih h
    refine ⟨first :: passed, by simp [hlength], ?_, ?_, by simp⟩
    · exact List.cons_subset.2 ⟨mem_names_of_get? hget, hsub⟩
    · cases passed with
      | nil => exact .singleton first
      | cons second rest =>
        refine .cons_cons ⟨d, ?_⟩ hchain
        rw [hget, hhead second rfl]

/-- Following bare aliases from the name on comes back to a name where it was before. -/
def Stuck (schema : Schema) (name : String) : Prop :=
  ∃ other, Relation.ReflTransGen schema.BareAlias name other ∧
    Relation.TransGen schema.BareAlias other other

/-- A stuck name is a bare alias of a name that is stuck as well. -/
theorem Stuck.step {schema : Schema} {name : String} (h : schema.Stuck name) :
    ∃ next, schema.BareAlias name next ∧ schema.Stuck next := by
  obtain ⟨other, hpath, hcycle⟩ := h
  rcases hpath.cases_head with rfl | ⟨next, hstep, hrest⟩
  · obtain ⟨next, hstep, hrest⟩ := Relation.TransGen.head'_iff.1 hcycle
    exact ⟨next, hstep, name, hrest, hcycle⟩
  · exact ⟨next, hstep, other, hrest, hcycle⟩

/-- The search never gets past a stuck name. -/
theorem circular_of_stuck {schema : Schema} (hops : Nat) :
    ∀ {name : String}, schema.Stuck name →
      ∃ last, schema.shapeWithin hops (.named name) = .error (.circularAlias last) := by
  induction hops with
  | zero =>
    intro name h
    obtain ⟨next, ⟨d, hget⟩, -⟩ := h.step
    exact ⟨name, by rw [shapeWithin.eq_def]; simp only [Ty.view, hget]⟩
  | succ hops ih =>
    intro name h
    obtain ⟨next, ⟨d, hget⟩, hnext⟩ := h.step
    obtain ⟨last, hlast⟩ := ih hnext
    exact ⟨last, by rw [shapeWithin.eq_def]; simp only [Ty.view, hget, hlast]⟩

/-- **The search gives up only at stuck names**: it has then followed more bare aliases than there
are definitions, so one of them was met twice. -/
theorem stuck_of_shapeWithin {schema : Schema} {type : Ty} {last : String}
    (h : schema.shapeWithin schema.defs.length type = .error (.circularAlias last)) :
    ∃ name, type = .named name ∧ schema.Stuck name := by
  obtain ⟨passed, hlength, hsub, hchain, hhead⟩ := exists_chain_of_circular h
  have hpairs : passed.Pairwise (Relation.TransGen schema.BareAlias) :=
    (hchain.imp fun _ _ hstep => Relation.TransGen.single hstep).pairwise
  have hdup : ¬ passed.Nodup := by
    intro hnodup
    have hle := (hnodup.subperm hsub).length_le
    rw [hlength, names, List.length_map] at hle
    omega
  obtain ⟨other, hother, hcycle⟩ :
      ∃ other ∈ passed, Relation.TransGen schema.BareAlias other other := by
    by_contra hnone
    push Not at hnone
    refine hdup (hpairs.imp_of_mem fun {a b} ha _ hreach heq => ?_)
    subst heq
    exact hnone a ha hreach
  cases passed with
  | nil => cases hother
  | cons first rest =>
    refine ⟨first, hhead first rfl, other, ?_, hcycle⟩
    rcases List.mem_cons.1 hother with rfl | hmem
    · exact .refl
    · exact ((List.pairwise_cons.1 hpairs).1 other hmem).to_reflTransGen

theorem stuck_of_circular {schema : Schema} {type : Ty} {last : String}
    (h : schema.shape type = .error (.circularAlias last)) :
    ∃ name, type = .named name ∧ schema.Stuck name := by
  obtain ⟨_, last', _, hlast', -⟩ | ⟨hnever, heq⟩ := schema.shape_cases type
  · exact stuck_of_shapeWithin hlast'
  · exact absurd (heq.symm.trans h) (hnever last)

/-- A stuck name is reported itself. -/
theorem shape_of_stuck {schema : Schema} {name : String} (h : schema.Stuck name) :
    schema.shape (.named name) = .error (.circularAlias name) := by
  obtain ⟨last, hlast⟩ := circular_of_stuck schema.defs.length h
  obtain ⟨other, _, hother, _, heq⟩ | ⟨hnever, -⟩ := schema.shape_cases (.named name)
  · cases hother
    exact heq
  · exact absurd hlast (hnever last)

/-- Where the search is not given up, what it finds is the shape. -/
theorem shape_eq_shapeWithin {schema : Schema} {type : Ty}
    (h : ∀ last, schema.shapeWithin schema.defs.length type ≠ .error (.circularAlias last)) :
    schema.shape type = schema.shapeWithin schema.defs.length type := by
  obtain ⟨_, last, _, hlast, -⟩ | ⟨-, heq⟩ := schema.shape_cases type
  · exact absurd hlast (h last)
  · exact heq

/-- What the search finds without giving up, it finds with more hops as well. -/
theorem shapeWithin_succ {schema : Schema} {hops : Nat} {type : Ty}
    (h : ∀ last, schema.shapeWithin hops type ≠ .error (.circularAlias last)) :
    schema.shapeWithin (hops + 1) type = schema.shapeWithin hops type := by
  fun_induction shapeWithin schema hops type with
  | case1 hops type shape hview => rw [shapeWithin.eq_def, hview]
  | case2 hops type name hview hget => rw [shapeWithin.eq_def]; simp only [hview, hget]
  | case3 hops type name hview d ctors hget => rw [shapeWithin.eq_def]; simp only [hview, hget]
  | case4 type name hview d definition hget => exact absurd rfl (h name)
  | case5 type name hview d definition hget hops ih =>
    rw [shapeWithin.eq_def]
    simp only [hview, hget]
    exact ih h

theorem shapeWithin_of_le {schema : Schema} {hops more : Nat} {type : Ty} (hle : hops ≤ more)
    (h : ∀ last, schema.shapeWithin hops type ≠ .error (.circularAlias last)) :
    schema.shapeWithin more type = schema.shapeWithin hops type := by
  induction hle with
  | refl => rfl
  | step _ ih => rw [shapeWithin_succ (ih ▸ h), ih]

/-- An alias that is not stuck comes down to what its definition comes down to, or fails as it
does. -/
theorem shape_alias {schema : Schema} {name d : String} {definition : Ty}
    (hget : schema.get? name = some (.alias d definition)) (hfree : ¬ schema.Stuck name) :
    schema.shape (.named name) = schema.shape definition := by
  obtain ⟨hops, hlength⟩ : ∃ hops, schema.defs.length = hops + 1 :=
    Nat.exists_eq_succ_of_ne_zero (Nat.ne_of_gt (List.length_pos_of_mem (mem_defs_of_get? hget)))
  have hstep : schema.shapeWithin schema.defs.length (.named name) =
      schema.shapeWithin hops definition := by
    rw [hlength, shapeWithin.eq_def]
    simp only [Ty.view, hget]
  have hnever : ∀ last,
      schema.shapeWithin schema.defs.length (.named name) ≠ .error (.circularAlias last) := by
    intro last hlast
    obtain ⟨other, hother, hstuck⟩ := stuck_of_shapeWithin hlast
    cases hother
    exact hfree hstuck
  have hmore : schema.shapeWithin schema.defs.length definition =
      schema.shapeWithin schema.defs.length (.named name) := by
    rw [hstep] at hnever ⊢
    rw [hlength, shapeWithin_succ hnever]
  rw [shape_eq_shapeWithin hnever, shape_eq_shapeWithin (hmore ▸ hnever), hmore]

theorem shape_ne_circular {schema : Schema} (hends : schema.AliasesEnd) (type : Ty)
    (name : String) : schema.shape type ≠ .error (.circularAlias name) := by
  intro h
  obtain ⟨-, -, other, -, hcycle⟩ := stuck_of_circular h
  exact hends other hcycle

theorem eq_circular_of_shapeWithin_error {schema : Schema} (hclosed : schema.Closed) {hops : Nat}
    {type : Ty} (hover : type.Over schema) {error : Error}
    (h : schema.shapeWithin hops type = .error error) : ∃ name, error = .circularAlias name := by
  fun_induction shapeWithin schema hops type with
  | case1 hops type found hview => cases h
  | case2 hops type name hview hget =>
    cases Ty.eq_named_of_view hview
    have hname := hover name (by simp [Ty.references])
    rw [contains, hget] at hname
    cases hname
  | case3 hops type name hview d ctors hget => cases h
  | case4 type name hview d definition hget => cases h; exact ⟨name, rfl⟩
  | case5 type name hview d definition hget hops ih =>
    exact ih (hclosed _ (mem_defs_of_get? hget)) h

/-- **Every type over a closed schema whose aliases end comes down to a shape.** -/
theorem exists_shape {schema : Schema} (hends : schema.AliasesEnd) (hclosed : schema.Closed)
    {type : Ty} (hover : type.Over schema) :
    ∃ shape, schema.shape type = .ok shape := by
  cases h : schema.shape type with
  | ok shape => exact ⟨shape, rfl⟩
  | error error =>
    obtain ⟨name, _, _, _, hcircular⟩ | ⟨hnever, heq⟩ := schema.shape_cases type
    · exact absurd hcircular (shape_ne_circular hends type name)
    · have hsearch := heq.symm.trans h
      obtain ⟨name, rfl⟩ := eq_circular_of_shapeWithin_error hclosed hover hsearch
      exact absurd hsearch (hnever name)

end Schema
end ElmWire
