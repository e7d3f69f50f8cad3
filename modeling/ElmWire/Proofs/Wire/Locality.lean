import ElmWire.Proofs.Wire.Reachability

/-!
# What the codec reads of a schema

A codec looks up names, and it looks up no names but those that its type reaches.  So of a schema it
reads only the definitions of these: over another schema that has the same ones it does the same,
whatever else the two define, and in whatever order.

* `Schema.AgreeOn` — two schemas define alike what a type reaches.  It is passed on to the
  definition of an alias and to the types of the parts of a message (`AgreeOn.definition`,
  `AgreeOn.part`).
* `Schema.AgreeOn.shape_eq` — then the type comes down to the same shape in both, or to the same
  error.  The schemas may differ in size, and with it in the bound on the search for a shape; but
  where the search is given up in one of them, it would be given up with any bound.
* `Codec.Computes.eq_of_agreeOn` — two runs of a codec, side by side, over schemas that agree.
* `Schema.agreeOn_of_perm` — schemas agree that differ in the order of their definitions and in
  definitions that are not reached.
-/

set_option autoImplicit false
namespace ElmWire

open Wire

namespace Schema

variable {schema other : Schema} {type : Ty}

/-- Every name that the type reaches in the first schema is defined alike in both, or in neither. -/
def AgreeOn (schema other : Schema) (type : Ty) : Prop :=
  ∀ name, schema.Reaches type name → schema.get? name = other.get? name

theorem AgreeOn.get?_of_view {name : String} (h : schema.AgreeOn other type)
    (hview : type.view = .name name) : other.get? name = schema.get? name := by
  cases Ty.eq_named_of_view hview
  exact (h name (reaches_named name)).symm

theorem AgreeOn.definition {name d : String} (h : schema.AgreeOn other (.named name))
    (hget : schema.get? name = some (.alias d type)) : schema.AgreeOn other type :=
  fun target htarget => h target (htarget.hop hget)

theorem AgreeOn.part {shape : Shape} {part : Ty} (h : schema.AgreeOn other type)
    (hshape : schema.shape type = .ok shape) (hpart : part ∈ shape.types) :
    schema.AgreeOn other part :=
  fun target htarget => h target (htarget.of_shape hshape hpart)

/-! ## The same shapes -/

/-- With the same bound, the search for a shape takes the same steps in both schemas. -/
theorem AgreeOn.shapeWithin_eq (h : schema.AgreeOn other type) (hops : Nat) :
    schema.shapeWithin hops type = other.shapeWithin hops type := by
  fun_induction shapeWithin schema hops type with
  | case1 hops type shape hview => simp only [shapeWithin.eq_def other, hview]
  | case2 hops type name hview hget | case3 hops type name hview d ctors hget
  | case4 type name hview d definition hget =>
    simp only [shapeWithin.eq_def other, hview, h.get?_of_view hview, hget]
  | case5 type name hview d definition hget hops ih =>
    cases Ty.eq_named_of_view hview
    rw [ih (h.definition hget), shapeWithin.eq_def other hops.succ]
    simp only [hview, h.get?_of_view hview, hget]

/-- Where the search is given up with the bound of the schema, it is given up with any bound. -/
theorem circular_of_circular {last : String}
    (h : schema.shapeWithin schema.defs.length type = .error (.circularAlias last)) (hops : Nat) :
    ∃ last', schema.shapeWithin hops type = .error (.circularAlias last') := by
  obtain ⟨name, rfl, hstuck⟩ := stuck_of_shapeWithin h
  exact circular_of_stuck hops hstuck

/-- **A type comes down to the same in schemas that agree on it**, also where this is an error. -/
theorem AgreeOn.shape_eq (h : schema.AgreeOn other type) :
    schema.shape type = other.shape type := by
  obtain ⟨name, last, rfl, hlast, hshape⟩ | ⟨hnever, hshape⟩ := schema.shape_cases type
  · obtain ⟨name', last', hname, hlast', hshape'⟩ | ⟨hnever', -⟩ := other.shape_cases (.named name)
    · cases hname
      rw [hshape, hshape']
    · obtain ⟨last', hlast'⟩ := circular_of_circular hlast other.defs.length
      exact absurd (h.shapeWithin_eq _ ▸ hlast') (hnever' last')
  · obtain ⟨name', last', -, hlast', -⟩ | ⟨hnever', hshape'⟩ := other.shape_cases type
    · obtain ⟨last, hlast⟩ := circular_of_circular hlast' schema.defs.length
      exact absurd (h.shapeWithin_eq _ ▸ hlast) (hnever last)
    · -- The search ends in both, so the smaller of the two bounds was enough for either.
      rw [hshape, hshape']
      rcases le_total schema.defs.length other.defs.length with hle | hle
      · rw [← h.shapeWithin_eq, shapeWithin_of_le hle hnever]
      · rw [h.shapeWithin_eq, shapeWithin_of_le hle hnever']

/-! ## Order and further definitions -/

/-- A schema without repeated names may be rearranged, and definitions of other names added, and
still a name has the same definition. -/
theorem get?_eq_of_perm {added : List TypeDef} {name : String} (hnodup : schema.names.Nodup)
    (hperm : other.defs.Perm (schema.defs ++ added)) (hnew : ∀ d ∈ added, d.name ≠ name) :
    schema.get? name = other.get? name := by
  have hsub : ∀ d ∈ schema.defs, d ∈ other.defs := fun d hmem =>
    hperm.mem_iff.2 (List.mem_append_left _ hmem)
  cases hother : other.get? name with
  | none =>
    rw [get?, List.find?_eq_none] at hother ⊢
    exact fun d hmem => hother d (hsub d hmem)
  | some d =>
    have hname := name_of_get? hother
    rcases List.mem_append.1 (hperm.mem_iff.1 (mem_defs_of_get? hother)) with hmem | hmem
    · rw [← hname]
      exact Source.get?_name_of_mem hnodup hmem
    · exact absurd hname (hnew d hmem)

theorem agreeOn_of_perm {added : List TypeDef} (hnodup : schema.names.Nodup)
    (hperm : other.defs.Perm (schema.defs ++ added))
    (hnew : ∀ d ∈ added, ¬ schema.Reaches type d.name) : schema.AgreeOn other type := by
  intro name hreaches
  refine get?_eq_of_perm hnodup hperm fun d hmem hname => hnew d hmem ?_
  rw [hname]
  exact hreaches

end Schema

namespace Wire

/-! ## The same codecs -/

/-- **Over schemas that agree on a type, a codec does the same.**  Going into a part, it is at a
type on which the schemas agree as well. -/
theorem Codec.Computes.eq_of_agreeOn {σ τ : Type} {c : Codec σ τ} {schema other : Schema}
    {run run' : Ty → σ → Except Error τ} (hc : c.Computes schema run) (hc' : c.Computes other run')
    (s : σ) : ∀ {type : Ty}, schema.AgreeOn other type → run type s = run' type s := by
  induction s using c.induction_parts with
  | h s ih =>
    intro type hagree
    rw [hc type s, hc' type s, ← hagree.shape_eq]
    cases hshape : schema.shape type with
    | error e => rfl
    | ok shape =>
      show (c.plan shape s >>= _) = (c.plan shape s >>= _)
      cases hplan : c.plan shape s with
      | error e => rfl
      | ok plan =>
        have hslots : plan.slots.mapM (atPlace run) = plan.slots.mapM (atPlace run') := by
          refine mapM_congr_of_mem fun slot hmem => ?_
          have hin := (c.plan_in shape s).slots plan hplan slot hmem
          cases slot with
          | error e => rfl
          | ok place =>
            exact ih place.2 (hin.part_mem place rfl) (hagree.part hshape (hin.type_mem place rfl))
        exact congrArg (plan.assemble <$> ·) hslots

/-- The two schemas give the type the same wire format: whatever is encoded or decoded, the results
and the errors are the same. -/
def SameFormat (schema other : Schema) (type : Ty) : Prop :=
  (∀ value, encode schema type value = encode other type value) ∧
    ∀ json, decode schema type json = decode other type json

theorem sameFormat_of_agreeOn {schema other : Schema} {type : Ty}
    (h : schema.AgreeOn other type) : SameFormat schema other type :=
  ⟨fun value => (encoding_computes schema).eq_of_agreeOn (encoding_computes other) value h,
    fun json => (decoding_computes schema).eq_of_agreeOn (decoding_computes other) json h⟩

/-- **The wire format of a type depends only on the definitions that it reaches.**  Two schemas that
define alike every name that the type reaches in the first give it the same format.  So do two
schemas of which one, where no name is repeated, has been rearranged and got further definitions
that the type does not reach. -/
theorem format_depends_on_reached (schema other : Schema) (type : Ty) :
    ((∀ name, schema.Reaches type name → schema.get? name = other.get? name) →
      SameFormat schema other type) ∧
    ∀ added : List TypeDef, schema.names.Nodup → other.defs.Perm (schema.defs ++ added) →
      (∀ d ∈ added, ¬ schema.Reaches type d.name) → SameFormat schema other type :=
  ⟨sameFormat_of_agreeOn, fun _ hnodup hperm hnew =>
    sameFormat_of_agreeOn (Schema.agreeOn_of_perm hnodup hperm hnew)⟩

/-- Trees, and in front of them a list of trees. -/
def forestSchema : Schema := ⟨.alias "Forest" (.list (.named "Tree")) :: treeSchema.defs⟩

/-- Trees are sent in the same way where there are forests, since they reach nothing but trees. -/
theorem format_depends_on_reached_forest :
    (∀ name, treeSchema.Reaches (.named "Tree") name →
      treeSchema.get? name = forestSchema.get? name) ∧
    treeSchema.names.Nodup ∧
    forestSchema.defs.Perm (treeSchema.defs ++ [.alias "Forest" (.list (.named "Tree"))]) ∧
    ¬ treeSchema.Reaches (.named "Tree") "Forest" ∧
    SameFormat treeSchema forestSchema (.named "Tree") := by
  have htree : ∀ name, treeSchema.Reaches (.named "Tree") name → name = "Tree" := by
    intro name h
    induction h with
    | refers hmem => exact List.mem_singleton.1 hmem
    | through _ hget hmem ih =>
      subst ih
      cases hget
      have hnames : ∀ other ∈ ["Tree", "Tree"], other = "Tree" := by decide
      exact hnames _ hmem
  have hagree : ∀ name, treeSchema.Reaches (.named "Tree") name →
      treeSchema.get? name = forestSchema.get? name := by
    intro name h
    cases htree name h
    rfl
  have hperm : forestSchema.defs.Perm
      (treeSchema.defs ++ [.alias "Forest" (.list (.named "Tree"))]) :=
    (List.perm_append_singleton _ _).symm
  have hforest : ¬ treeSchema.Reaches (.named "Tree") "Forest" := fun h =>
    absurd (htree _ h) (by decide)
  refine ⟨hagree, by decide, hperm, hforest, ?_⟩
  refine (format_depends_on_reached treeSchema forestSchema (.named "Tree")).2 _ (by decide)
    hperm ?_
  exact List.forall_mem_singleton.2 hforest

end Wire
end ElmWire
