import ElmWire.Proofs.TypeScript.Inhabitants

/-!
# What TypeScript declarations refer to

`TypeExpr.mentions` are the named types in a type, each with the number of its arguments.  In the
exported type of a definition these are `Array`, the two generic types, and the definitions that it
refers to (`mentionsIn_reading`).
-/

set_option autoImplicit false
namespace ElmWire.TypeScript

mutual

/-- The named types in a type, and with how many arguments they occur. -/
@[simp]
def TypeExpr.mentions : TypeExpr → List (String × Nat)
  | .number | .boolean | .string | .never | .literal _ => []
  | .tuple items | .union items => mentionsAll items
  | .object members => memberMentions members
  | .ref name arguments => (name, arguments.length) :: mentionsAll arguments

/-- The named types in several types. -/
@[simp]
def mentionsAll : List TypeExpr → List (String × Nat)
  | [] => []
  | type :: rest => type.mentions ++ mentionsAll rest

/-- The named types in the members of an object type. -/
@[simp]
def memberMentions : List (String × TypeExpr) → List (String × Nat)
  | [] => []
  | (_, type) :: rest => type.mentions ++ memberMentions rest

end

/-- All named types in the type are known ones. -/
def TypeExpr.MentionsIn (known : String × Nat → Prop) (type : TypeExpr) : Prop :=
  ∀ mention ∈ type.mentions, known mention

section

variable {known : String × Nat → Prop}

theorem forall_mem_mentionsAll {types : List TypeExpr} :
    (∀ mention ∈ mentionsAll types, known mention) ↔ ∀ type ∈ types, type.MentionsIn known := by
  induction types with
  | nil => simp
  | cons type rest ih => rw [mentionsAll, List.forall_mem_append, ih, List.forall_mem_cons]; rfl

theorem forall_mem_memberMentions {members : List (String × TypeExpr)} :
    (∀ mention ∈ memberMentions members, known mention) ↔
      ∀ member ∈ members, member.2.MentionsIn known := by
  induction members with
  | nil => simp
  | cons member rest ih =>
    rw [memberMentions, List.forall_mem_append, ih, List.forall_mem_cons]
    rfl

namespace TypeExpr.MentionsIn

theorem ref {name : String} {arguments : List TypeExpr} (h : known (name, arguments.length))
    (ha : ∀ type ∈ arguments, type.MentionsIn known) :
    (TypeExpr.ref name arguments).MentionsIn known := by
  rw [MentionsIn, mentions]
  exact List.forall_mem_cons.2 ⟨h, forall_mem_mentionsAll.2 ha⟩

theorem tuple {items : List TypeExpr} (h : ∀ type ∈ items, type.MentionsIn known) :
    (TypeExpr.tuple items).MentionsIn known := by
  rw [MentionsIn, mentions]
  exact forall_mem_mentionsAll.2 h

theorem union {items : List TypeExpr} (h : ∀ type ∈ items, type.MentionsIn known) :
    (TypeExpr.union items).MentionsIn known := by
  rw [MentionsIn, mentions]
  exact forall_mem_mentionsAll.2 h

theorem object {members : List (String × TypeExpr)}
    (h : ∀ member ∈ members, member.2.MentionsIn known) :
    (TypeExpr.object members).MentionsIn known := by
  rw [MentionsIn, mentions]
  exact forall_mem_memberMentions.2 h

theorem variantReading (name : String) {arguments : List TypeExpr}
    (h : ∀ type ∈ arguments, type.MentionsIn known) :
    (TypeScript.variantReading name arguments).MentionsIn known := by
  refine object (List.forall_mem_cons.2 ⟨by simp [MentionsIn], fun member hmember => ?_⟩)
  obtain ⟨i, hi, rfl⟩ := List.mem_mapIdx.1 hmember
  exact h _ (List.getElem_mem hi)

theorem unionReading {types : List TypeExpr} (h : ∀ type ∈ types, type.MentionsIn known) :
    (TypeScript.unionReading types).MentionsIn known := by
  fun_cases TypeScript.unionReading types with
  | case1 => simp [MentionsIn]
  | case2 types =>
    fun_cases TypeExpr.ofAlternatives types with
    | case1 type => exact h type (List.mem_singleton_self type)
    | case2 types => exact union h

end TypeExpr.MentionsIn
end

/-- The array type and the generic types are known. -/
def Generics (known : String × Nat → Prop) : Prop :=
  known ("Array", 1) ∧ known ("Maybe", 1) ∧ known ("Result", 2)

mutual

/-- What the text of a type refers to. -/
theorem mentionsIn_type {known : String × Nat → Prop} (hgenerics : Generics known) : ∀ type : Ty,
    (∀ name ∈ type.references, known (name, 0)) → type.reading.MentionsIn known
  | .unit, _ => by rw [Ty.reading]; exact .variantReading _ (List.forall_mem_nil _)
  | .bool, _ | .int, _ | .float, _ | .char, _ | .string, _ => by
    rw [Ty.reading]
    simp [TypeExpr.MentionsIn]
  | .named name, hreferences => by
    rw [Ty.reading]
    exact .ref (hreferences name (by simp [Ty.references])) (List.forall_mem_nil _)
  | .list item, hreferences => by
    rw [Ty.references] at hreferences
    rw [Ty.reading]
    exact .ref hgenerics.1
      (List.forall_mem_singleton.2 (mentionsIn_type hgenerics item hreferences))
  | .maybe item, hreferences => by
    rw [Ty.references] at hreferences
    rw [Ty.reading]
    exact .ref hgenerics.2.1
      (List.forall_mem_singleton.2 (mentionsIn_type hgenerics item hreferences))
  | .result error ok, hreferences => by
    rw [Ty.references, List.forall_mem_append] at hreferences
    rw [Ty.reading]
    refine .ref hgenerics.2.2 (List.forall_mem_cons.2 ⟨?_, List.forall_mem_singleton.2 ?_⟩)
    · exact mentionsIn_type hgenerics error hreferences.1
    · exact mentionsIn_type hgenerics ok hreferences.2
  | .pair first second, hreferences => by
    rw [Ty.references, List.forall_mem_append] at hreferences
    rw [Ty.reading]
    refine .tuple (List.forall_mem_cons.2 ⟨?_, List.forall_mem_singleton.2 ?_⟩)
    · exact mentionsIn_type hgenerics first hreferences.1
    · exact mentionsIn_type hgenerics second hreferences.2
  | .triple first second third, hreferences => by
    rw [Ty.references, List.forall_mem_append, List.forall_mem_append] at hreferences
    rw [Ty.reading]
    refine .tuple (List.forall_mem_cons.2 ⟨?_, List.forall_mem_cons.2 ⟨?_,
      List.forall_mem_singleton.2 ?_⟩⟩)
    · exact mentionsIn_type hgenerics first hreferences.1.1
    · exact mentionsIn_type hgenerics second hreferences.1.2
    · exact mentionsIn_type hgenerics third hreferences.2
  | .record fields, hreferences => by
    rw [Ty.references] at hreferences
    rw [Ty.reading]
    exact .object (mentionsIn_fields hgenerics fields hreferences)

theorem mentionsIn_fields {known : String × Nat → Prop} (hgenerics : Generics known) :
    ∀ fields : List (String × Ty), (∀ name ∈ fieldReferences fields, known (name, 0)) →
      ∀ member ∈ fieldReadings fields, member.2.MentionsIn known
  | [], _ => by rw [fieldReadings]; exact List.forall_mem_nil _
  | (name, type) :: rest, hreferences => by
    rw [fieldReferences, List.forall_mem_append] at hreferences
    rw [fieldReadings]
    exact List.forall_mem_cons.2 ⟨mentionsIn_type hgenerics type hreferences.1,
      mentionsIn_fields hgenerics rest hreferences.2⟩

end

/-- **What the exported type of a definition refers to.** -/
theorem mentionsIn_reading {known : String × Nat → Prop} (hgenerics : Generics known) (d : TypeDef)
    (hreferences : ∀ name ∈ d.references, known (name, 0)) : d.reading.type.MentionsIn known := by
  cases d with
  | «alias» name type => exact mentionsIn_type hgenerics type hreferences
  | custom name ctors =>
    refine .unionReading (List.forall_mem_map.2 fun ctor hctor => .variantReading _ ?_)
    refine List.forall_mem_map.2 fun type htype => mentionsIn_type hgenerics type ?_
    intro reference h
    exact hreferences reference (references_subset_of_mem_arguments hctor htype name h)

end ElmWire.TypeScript
