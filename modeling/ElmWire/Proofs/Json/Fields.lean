import ElmWire.Json.Reader
import ElmWire.Proofs.Failing
import ElmWire.Proofs.Json.Reading

/-!
# Fields in any order

An object may give its fields in any order and may have further members, and some fields may be left
out.  `Form.Gives fields form` says that the object `form` gives exactly these fields, and what it
gives for them.

* `Gives.fields?_eq` — **the reader finds what was given for each field**, wherever it stands.
* `Gives.exists_tagged?` — it finds the kind of tagged data wherever it stands, and what is left
  gives the other fields.
-/

set_option autoImplicit false
namespace ElmWire.Json.Form

/-- The members that give the fields, without those that are left out. -/
def givenMembers (fields : List (String × Option Form)) : List (String × Form) :=
  fields.filterMap fun field => field.2.map fun part => (field.1, part)

/-- The object gives the fields: a member for each that is not left out, and any further members
with other names, in any order. -/
inductive Gives (fields : List (String × Option Form)) : Form → Prop
  | intro {members further : List (String × Form)}
      (hfurther : ∀ member ∈ further, member.1 ∉ fields.map Prod.fst)
      (hmembers : members.Perm (givenMembers fields ++ further)) :
      Gives fields (.object (members.map fun member => (some member.1, member.2)))

/-- A list that may be left out if it is empty. -/
inductive MayLeaveOut : List Form → Option Form → Prop
  | written (items : List Form) : MayLeaveOut items (some (.array items))
  | leftOut : MayLeaveOut [] none

/-! ## Finding a field -/

theorem givenMembers_cons (first : String × Option Form) (rest : List (String × Option Form)) :
    givenMembers (first :: rest) =
      (first.2.toList.map fun part => (first.1, part)) ++ givenMembers rest := by
  cases hgiven : first.2 <;> simp [givenMembers, hgiven]

theorem mem_names_of_mem_givenMembers {fields : List (String × Option Form)}
    {member : String × Form}
    (h : member ∈ givenMembers fields) : member.1 ∈ fields.map Prod.fst := by
  obtain ⟨field, hfield, hmember⟩ := List.mem_filterMap.1 h
  obtain ⟨part, -, rfl⟩ := Option.map_eq_some_iff.1 hmember
  exact List.mem_map_of_mem hfield

theorem filter_eq_nil_of_forall_ne {members : List (String × Form)} {name : String}
    (h : ∀ member ∈ members, member.1 ≠ name) :
    members.filter (fun member => member.1 = name) = [] := by
  rw [List.filter_eq_nil_iff]
  simpa using h

/-- The members for a field are what is given for it. -/
theorem filter_givenMembers {fields : List (String × Option Form)}
    (hnodup : (fields.map Prod.fst).Nodup) {field : String × Option Form}
    (hfield : field ∈ fields) :
    (givenMembers fields).filter (fun member => member.1 = field.1) =
      field.2.toList.map fun part => (field.1, part) := by
  induction fields with
  | nil => cases hfield
  | cons first rest ih =>
    obtain ⟨hfirst, hrest⟩ := List.nodup_cons.1 hnodup
    rw [givenMembers_cons, List.filter_append]
    rcases List.mem_cons.1 hfield with rfl | hmem
    · have hothers : (givenMembers rest).filter (fun member => member.1 = field.1) = [] :=
        filter_eq_nil_of_forall_ne fun member hmember heq =>
          hfirst (heq ▸ mem_names_of_mem_givenMembers hmember)
      rw [hothers, List.append_nil, List.filter_eq_self]
      simp
    · have hother : first.1 ≠ field.1 := fun heq => hfirst (heq ▸ List.mem_map_of_mem hmem)
      have hnone : (first.2.toList.map fun part => (first.1, part)).filter
          (fun member => member.1 = field.1) = [] :=
        filter_eq_nil_of_forall_ne (by simp [hother])
      rw [hnone, List.nil_append, ih hrest hmem]

section

variable {fields : List (String × Option Form)} {members further : List (String × Form)}

/-- However the members are ordered, those with the name of a field are what is given for it. -/
theorem filter_members (hnodup : (fields.map Prod.fst).Nodup)
    (hfurther : ∀ member ∈ further, member.1 ∉ fields.map Prod.fst)
    (hmembers : members.Perm (givenMembers fields ++ further))
    {field : String × Option Form} (hfield : field ∈ fields) :
    members.filter (fun member => member.1 = field.1) =
      field.2.toList.map fun part => (field.1, part) := by
  have hnone : further.filter (fun member => member.1 = field.1) = [] :=
    filter_eq_nil_of_forall_ne fun member hmember heq =>
      hfurther member hmember (heq ▸ List.mem_map_of_mem hfield)
  have hperm := hmembers.filter fun member => member.1 = field.1
  rw [List.filter_append, filter_givenMembers hnodup hfield, hnone, List.append_nil] at hperm
  cases hgiven : field.2 with
  | none => rw [hgiven] at hperm; exact hperm.eq_nil
  | some part => rw [hgiven] at hperm; exact List.perm_singleton.1 hperm

theorem fieldOf?_eq (hnodup : (fields.map Prod.fst).Nodup)
    (hfurther : ∀ member ∈ further, member.1 ∉ fields.map Prod.fst)
    (hmembers : members.Perm (givenMembers fields ++ further))
    {field : String × Option Form} (hfield : field ∈ fields) :
    fieldOf? members field.1 = some field.2 := by
  rw [fieldOf?, filter_members hnodup hfurther hmembers hfield]
  cases field.2 <;> rfl

end

namespace Gives

variable {fields : List (String × Option Form)} {form : Form}

/-- **What was given for each field is found**, whatever the order of the members. -/
theorem fields?_eq (h : Gives fields form) (hnodup : (fields.map Prod.fst).Nodup) :
    form.fields? (fields.map Prod.fst) = some (fields.map Prod.snd) := by
  obtain @⟨members, further, hfurther, hmembers⟩ := h
  have hnames : (members.map fun member => (some member.1, member.2)).mapM
      (fun member => member.1.map fun name => (name, member.2)) = some (members.map id) :=
    mapM_map_eq_some fun _ _ => rfl
  rw [fields?, hnames, List.map_id]
  exact mapM_map_eq_some fun field hfield => fieldOf?_eq hnodup hfurther hmembers hfield

/-- Of data with a tag, the tag is found and the rest gives the other fields. -/
theorem exists_tagged? {tag : String} {kind : Form} (h : Gives ((tag, some kind) :: fields) form)
    (hnodup : (((tag, some kind) :: fields).map Prod.fst).Nodup) :
    ∃ rest, form.tagged? tag = some (kind, rest) ∧ Gives fields rest := by
  obtain @⟨members, further, hfurther, hmembers⟩ := h
  have htag : members.filter (fun member => member.1 = tag) = [(tag, kind)] := by
    have hfield : (tag, some kind) ∈ (tag, some kind) :: fields := List.mem_cons_self ..
    simpa using filter_members hnodup hfurther hmembers hfield
  have hothers : (members.filter fun member => member.1 ≠ tag).Perm
      (givenMembers fields ++ further) := by
    have hsame : (givenMembers fields ++ further).filter (fun member => member.1 ≠ tag) =
        givenMembers fields ++ further := by
      rw [List.filter_eq_self]
      intro member hmember
      rw [decide_eq_true_eq]
      rintro rfl
      rcases List.mem_append.1 hmember with hgiven | hmember
      · exact (List.nodup_cons.1 hnodup).1 (mem_names_of_mem_givenMembers hgiven)
      · exact hfurther member hmember (List.mem_cons_self ..)
    have hperm := hmembers.filter fun member => member.1 ≠ tag
    rw [givenMembers_cons, List.append_assoc, List.filter_append, hsame] at hperm
    simpa using hperm
  refine ⟨_, ?_, .intro (fun member hmember hname => ?_) hothers⟩
  · have hkind : (members.map fun member => (some member.1, member.2)).filter
        (fun member => member.1 = some tag) = [(some tag, kind)] := by
      simpa [List.filter_map, Function.comp_def] using htag
    rw [tagged?, hkind]
    simp [List.filter_map, Function.comp_def]
  · exact hfurther member hmember (List.mem_cons_of_mem _ hname)

end Gives

/-! ## Going down into a form -/

theorem isSome_evaluateItems?_cons {form : Form} {items : List Form} :
    (evaluateItems? (form :: items)).isSome ↔
      form.evaluate?.isSome ∧ (evaluateItems? items).isSome := by
  rw [evaluateItems?]
  cases form.evaluate? <;> cases evaluateItems? items <;> simp

theorem isSome_evaluate?_array {items : List Form} :
    (Form.array items).evaluate?.isSome ↔ ∀ item ∈ items, item.evaluate?.isSome := by
  rw [evaluate?, Option.isSome_map]
  induction items with
  | nil => simp [evaluateItems?]
  | cons item items ih => rw [isSome_evaluateItems?_cons, ih, List.forall_mem_cons]

/-- What stands in the object under one of the names has a value. -/
def HasValuesAt (names : List String) : Form → Prop
  | .object members => ∀ member ∈ members, (∃ name ∈ names, member.1 = some name) →
      member.2.evaluate?.isSome
  | _ => True

theorem depth_lt_array {items : List Form} {item : Form} (h : item ∈ items) :
    item.depth < (Form.array items).depth := by
  rw [Form.depth, Nat.lt_succ_iff]
  induction items with
  | nil => cases h
  | cons first items ih =>
    rw [depthItems]
    rcases List.mem_cons.1 h with rfl | h
    · exact Nat.le_max_left ..
    · exact (ih h).trans (Nat.le_max_right ..)

theorem depth_lt_object {members : List (Option String × Form)} {member : Option String × Form}
    (h : member ∈ members) : member.2.depth < (Form.object members).depth := by
  rw [Form.depth, Nat.lt_succ_iff]
  induction members with
  | nil => cases h
  | cons first members ih =>
    rw [depthMembers]
    rcases List.mem_cons.1 h with rfl | h
    · exact Nat.le_max_left ..
    · exact (ih h).trans (Nat.le_max_right ..)

namespace Gives

variable {fields : List (String × Option Form)} {form : Form}

theorem exists_mem_members {members further : List (String × Form)}
    (hmembers : members.Perm (givenMembers fields ++ further)) {part : Form}
    (h : some part ∈ fields.map Prod.snd) :
    ∃ name, (some name, part) ∈ members.map fun member => (some member.1, member.2) := by
  obtain ⟨field, hfield, hpart⟩ := List.mem_map.1 h
  have hgiven : (field.1, part) ∈ givenMembers fields :=
    List.mem_filterMap.2 ⟨field, hfield, by rw [hpart]; rfl⟩
  exact ⟨field.1, List.mem_map.2 ⟨_, hmembers.mem_iff.2 (List.mem_append_left _ hgiven), rfl⟩⟩

/-- What stands under the names of fields is what is given for these fields. -/
theorem hasValuesAt_iff (h : Gives fields form) {names : List String}
    (hnames : ∀ name ∈ names, name ∈ fields.map Prod.fst) :
    form.HasValuesAt names ↔ ∀ field ∈ fields, field.1 ∈ names →
      ∀ part ∈ field.2, part.evaluate?.isSome := by
  obtain @⟨members, further, hfurther, hmembers⟩ := h
  have hgiven : ∀ {member : String × Form}, member.1 ∈ names →
      (member ∈ members ↔ ∃ field ∈ fields, member.2 ∈ field.2 ∧ field.1 = member.1) := by
    intro member hmember
    have hnot : member ∉ further := fun hmem => hfurther member hmem (hnames _ hmember)
    rw [hmembers.mem_iff, List.mem_append, or_iff_left hnot, givenMembers, List.mem_filterMap]
    simp [Prod.ext_iff, and_comm]
  constructor
  · intro hvalues field hfield hname part hpart
    have hmem := (@hgiven (field.1, part) hname).2 ⟨field, hfield, hpart, rfl⟩
    exact hvalues _ (List.mem_map_of_mem hmem) ⟨field.1, hname, rfl⟩
  · intro hvalues member hmember ⟨name, hname, heq⟩
    obtain ⟨member, hmem, rfl⟩ := List.mem_map.1 hmember
    cases heq
    obtain ⟨field, hfield, hpart, hsame⟩ := (hgiven hname).1 hmem
    exact hvalues field hfield (hsame ▸ hname) _ hpart

/-- What is given for a field is nested less deep than the whole object. -/
theorem depth_lt (h : Gives fields form) {part : Form} (hpart : some part ∈ fields.map Prod.snd) :
    part.depth < form.depth := by
  obtain ⟨-, hmembers⟩ := h
  obtain ⟨name, hmem⟩ := exists_mem_members hmembers hpart
  exact depth_lt_object hmem

end Gives

/-! ## Lists -/

/-- A list that may be left out has a value if its items have. -/
theorem MayLeaveOut.isSome_evaluate?_iff {items : List Form} {given : Option Form}
    (h : MayLeaveOut items given) :
    (∀ part ∈ given, part.evaluate?.isSome) ↔ ∀ item ∈ items, item.evaluate?.isSome := by
  cases h with
  | written =>
    rw [← isSome_evaluate?_array]
    exact ⟨fun h => h _ rfl, fun h part hpart => Option.some.inj hpart ▸ h⟩
  | leftOut => simp

theorem MayLeaveOut.depth_lt {items : List Form} {given : Option Form} (h : MayLeaveOut items given)
    {n : Nat} (hgiven : ∀ part, given = some part → part.depth ≤ n) :
    ∀ item ∈ items, item.depth < n := by
  cases h with
  | written => exact fun item hitem => (depth_lt_array hitem).trans_le (hgiven _ rfl)
  | leftOut => simp

/-- A list of things that can be read. -/
theorem list?_eq {α : Type} {read : Form → Option α} {pairs : List (α × Form)}
    (h : ∀ pair ∈ pairs, read pair.2 = some pair.1) :
    list? read (.array (pairs.map Prod.snd)) = some (pairs.map Prod.fst) :=
  mapM_map_eq_some h

/-- A list with an item that cannot be read. -/
theorem list?_eq_none {α : Type} {read : Form → Option α} {items : List Form} {item : Form}
    (hitem : item ∈ items) (h : read item = none) : list? read (.array items) = none := by
  rw [Option.eq_none_iff_forall_ne_some]
  intro as has
  obtain ⟨a, -, ha⟩ := exists_of_mapM_eq_some has item hitem
  cases h.symm.trans ha

theorem MayLeaveOut.optional_eq_none {α : Type} {read : Form → Option α} {items : List Form}
    {given : Option Form} (hgiven : MayLeaveOut items given) {item : Form} (hitem : item ∈ items)
    (h : read item = none) : optional [] (list? read) given = none := by
  cases hgiven with
  | written => exact list?_eq_none hitem h
  | leftOut => cases hitem

theorem MayLeaveOut.optional_eq {α : Type} {read : Form → Option α} {pairs : List (α × Form)}
    {given : Option Form} (hgiven : MayLeaveOut (pairs.map Prod.snd) given)
    (h : ∀ pair ∈ pairs, read pair.2 = some pair.1) :
    optional [] (list? read) given = some (pairs.map Prod.fst) := by
  generalize hitems : pairs.map Prod.snd = items at hgiven
  cases hgiven with
  | written => rw [← hitems]; exact list?_eq h
  | leftOut =>
    rw [List.map_eq_nil_iff.1 hitems]
    rfl

end ElmWire.Json.Form
