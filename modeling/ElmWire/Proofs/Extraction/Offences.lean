import ElmWire.Proofs.Extraction.Denotation

/-!
# Type terms that stand for no type

`Ty.written` is how a type is written.  A type term is either what is written for a type, and then
it stands for that type and no other, or there is something in it that has no place in a message.

* `TypeTerm.offence?` — what is wrong with a type term, of which only the outermost form is looked
  at.
* `TypeTerm.nodes` — a type term and all the terms in it, from left to right, each before those in
  it.
* `TypeTerm.SameAbove` — two type terms differ at most in what is below some offence.

**Reading a type term undoes writing a type, and reports the first offence where there is nothing to
undo** (`TypeTerm.reads_written_or_offends`).  What stands below an offence makes no difference.
-/

set_option autoImplicit false
namespace ElmWire

open Source

/-! ## Writing types -/

mutual

/-- The type term that is written for a type. -/
def Ty.written : Ty → TypeTerm
  | .unit => .unit
  | .bool => .named "Bool" []
  | .int => .named "Int" []
  | .float => .named "Float" []
  | .char => .named "Char" []
  | .string => .named "String" []
  | .list item => .named "List" [item.written]
  | .pair first second => .tuple [first.written, second.written]
  | .triple first second third => .tuple [first.written, second.written, third.written]
  | .record fields => .record (writtenFields fields)
  | .named name => .named name []
  | .maybe item => .named "Maybe" [item.written]
  | .result error ok => .named "Result" [error.written, ok.written]

/-- The fields that are written for the fields of a record type. -/
def writtenFields : List (String × Ty) → List (String × TypeTerm)
  | [] => []
  | (name, type) :: rest => (name, type.written) :: writtenFields rest

end

/-- No reference in the type has the name of a built-in type. -/
def Ty.RefersPlainly (type : Ty) : Prop := ∀ name ∈ type.references, name ∉ primitiveNames

instance (type : Ty) : Decidable type.RefersPlainly :=
  inferInstanceAs (Decidable (∀ name ∈ type.references, name ∉ primitiveNames))

theorem writtenFields_eq_map (fields : List (String × Ty)) :
    writtenFields fields = fields.map fun field => (field.1, field.2.written) := by
  induction fields with
  | nil => rfl
  | cons field rest ih => rw [writtenFields, ih, List.map_cons]

mutual

theorem Ty.denotes_written : ∀ type : Ty, type.RefersPlainly → type.written.Denotes type
  | .unit, _ => .unit
  | .bool, _ => .bool
  | .int, _ => .int
  | .float, _ => .float
  | .char, _ => .char
  | .string, _ => .string
  | .named name, h => .reference (h name (List.mem_singleton.2 rfl))
  | .list item, h => .list (item.denotes_written h)
  | .maybe item, h => .maybe (item.denotes_written h)
  | .pair first second, h =>
    have h := List.forall_mem_append.1 h
    .pair (first.denotes_written h.1) (second.denotes_written h.2)
  | .triple first second third, h =>
    have h := List.forall_mem_append.1 h
    have h' := List.forall_mem_append.1 h.1
    .triple (first.denotes_written h'.1) (second.denotes_written h'.2) (third.denotes_written h.2)
  | .result error ok, h =>
    have h := List.forall_mem_append.1 h
    .result (error.denotes_written h.1) (ok.denotes_written h.2)
  | .record fields, h => by
    have hfields := denotes_writtenFields fields h
    have hrecord := @TypeTerm.Denotes.record
      (fields.map fun field => (field.1, field.2.written, field.2)) (List.forall_mem_map.2 hfields)
    rw [Ty.written, writtenFields_eq_map]
    simpa [List.map_map, Function.comp_def] using hrecord

theorem denotes_writtenFields : ∀ fields : List (String × Ty),
    (∀ name ∈ fieldReferences fields, name ∉ primitiveNames) →
    ∀ field ∈ fields, field.2.written.Denotes field.2
  | [], _ => List.forall_mem_nil _
  | (_, type) :: rest, h =>
    have h := List.forall_mem_append.1 h
    List.forall_mem_cons.2 ⟨type.denotes_written h.1, denotes_writtenFields rest h.2⟩

end

namespace Source

open Extraction

/-- A name that is referred to is not that of a built-in type. -/
theorem TypeTerm.Refers.notMem {a : TypeTerm} {name : String} (h : a.Refers name) :
    name ∉ primitiveNames := by
  induction h with
  | here h => exact h
  | argument _ _ ih | item _ _ ih | field _ _ ih => exact ih

theorem TypeTerm.Denotes.refersPlainly {a : TypeTerm} {type : Ty} (h : a.Denotes type) :
    type.RefersPlainly := fun _ hname => (h.mem_references_iff.1 hname).notMem

theorem TypeTerm.Denotes.eq_written {a : TypeTerm} {type : Ty} (h : a.Denotes type) :
    a = type.written := by
  induction h with
  | unit | bool | int | float | char | string | reference => rfl
  | list _ ih | maybe _ ih => rw [Ty.written, ih]
  | pair _ _ iha ihb | result _ _ iha ihb => rw [Ty.written, iha, ihb]
  | triple _ _ _ iha ihb ihc => rw [Ty.written, iha, ihb, ihc]
  | record _ ih =>
    rw [Ty.written, writtenFields_eq_map, List.map_map]
    exact congrArg _ (List.map_congr_left fun field hfield => by rw [ih field hfield]; rfl)

/-! ## Offences -/

/-- Does the name stand for a type if it is given so many arguments? -/
def takesArguments (name : String) (count : Nat) : Bool :=
  match count with
  | 0 => true
  | 1 => name = "List" || name = "Maybe"
  | 2 => name = "Result"
  | _ => false

namespace TypeTerm

/-- What is wrong with the outermost form of a type term. -/
def offence? : TypeTerm → Option TypeTermError
  | .var _ | .function _ _ | .extension _ _ => some .parametric
  | .named name arguments =>
    if takesArguments name arguments.length then none else some (.applied name)
  | .tuple items =>
    if items.length = 2 ∨ items.length = 3 then none else some (.tupleArity items.length)
  | .unit | .record _ => none

mutual

/-- The type term and all terms in it, from left to right, each before those in it. -/
def nodes : TypeTerm → List TypeTerm
  | .var name => [.var name]
  | .named name arguments => .named name arguments :: nodesAll arguments
  | .unit => [.unit]
  | .tuple items => .tuple items :: nodesAll items
  | .record fields => .record fields :: nodesFields fields
  | .extension base fields => .extension base fields :: nodesFields fields
  | .function argument result => .function argument result :: (argument.nodes ++ result.nodes)

/-- Several type terms and all terms in them. -/
def nodesAll : List TypeTerm → List TypeTerm
  | [] => []
  | a :: rest => a.nodes ++ nodesAll rest

/-- The type terms of fields and all terms in them. -/
def nodesFields : List (String × TypeTerm) → List TypeTerm
  | [] => []
  | (_, a) :: rest => a.nodes ++ nodesFields rest

end

/-- The type terms are the same but for what stands below offences. -/
inductive SameAbove : TypeTerm → TypeTerm → Prop
  | offence {a b : TypeTerm} {error : TypeTermError} (ha : a.offence? = some error)
      (hb : b.offence? = some error) : SameAbove a b
  | unit : SameAbove .unit .unit
  | named {name : String} {pairs : List (TypeTerm × TypeTerm)}
      (h : ∀ pair ∈ pairs, SameAbove pair.1 pair.2) :
      SameAbove (.named name (pairs.map Prod.fst)) (.named name (pairs.map Prod.snd))
  | tuple {pairs : List (TypeTerm × TypeTerm)} (h : ∀ pair ∈ pairs, SameAbove pair.1 pair.2) :
      SameAbove (.tuple (pairs.map Prod.fst)) (.tuple (pairs.map Prod.snd))
  | record {fields : List (String × TypeTerm × TypeTerm)}
      (h : ∀ field ∈ fields, SameAbove field.2.1 field.2.2) :
      SameAbove (.record (fields.map fun field => (field.1, field.2.1)))
        (.record (fields.map fun field => (field.1, field.2.2)))

/-! ## The first offence is reported -/

mutual

/-- **Reading fails for the first offence.** -/
theorem reason?_toTy : ∀ a : TypeTerm, reason? a.toTy = a.nodes.findSome? offence?
  | .unit => rfl
  | .var _ | .extension _ _ | .function _ _ => by
    rw [toTy, nodes]
    rfl
  | .named name [] => by
    rw [toTy]
    rfl
  | .named name [item] => by
    have hitem := reason?_toTy item
    rw [toTy, nodes, nodesAll, nodesAll, List.append_nil, List.findSome?_cons, ← hitem]
    by_cases hlist : name = "List"
    · rw [if_pos hlist, reason?_bind_pure]
      simp [offence?, takesArguments, hlist]
    · by_cases hmaybe : name = "Maybe"
      · rw [if_neg hlist, if_pos hmaybe, reason?_bind_pure]
        simp [offence?, takesArguments, hmaybe]
      · simp [offence?, takesArguments, hlist, hmaybe, reason?]
  | .named name [error, ok] => by
    have herror := reason?_toTy error
    have hok := reason?_toTy ok
    rw [toTy, nodes, nodesAll, nodesAll, nodesAll, List.append_nil, List.findSome?_cons,
      List.findSome?_append, ← herror, ← hok]
    by_cases hresult : name = "Result"
    · rw [if_pos hresult]
      refine (reason?_bind fun _ => reason?_bind_pure _ _).trans ?_
      simp [offence?, takesArguments, hresult]
    · simp [offence?, takesArguments, hresult, reason?]
  | .named name (a :: b :: c :: rest) => by
    rw [toTy, nodes, List.findSome?_cons]
    · rfl
    all_goals simp
  | .tuple [a, b] => by
    have ha := reason?_toTy a
    have hb := reason?_toTy b
    rw [toTy, nodes, nodesAll, nodesAll, nodesAll, List.append_nil, List.findSome?_cons,
      List.findSome?_append, ← ha, ← hb]
    exact reason?_bind fun _ => reason?_bind_pure _ _
  | .tuple [a, b, c] => by
    have ha := reason?_toTy a
    have hb := reason?_toTy b
    have hc := reason?_toTy c
    rw [toTy, nodes, nodesAll, nodesAll, nodesAll, nodesAll, List.append_nil, List.findSome?_cons,
      List.findSome?_append, List.findSome?_append, ← ha, ← hb, ← hc]
    exact reason?_bind fun _ => reason?_bind fun _ => reason?_bind_pure _ _
  | .tuple [] | .tuple [_] | .tuple (_ :: _ :: _ :: _ :: _) => by
    rw [toTy, nodes, List.findSome?_cons]
    · simp [offence?, reason?]
    all_goals simp
  | .record fields => by
    have hfields := reason?_fieldTys fields
    rw [toTy, nodes, List.findSome?_cons, ← hfields, reason?_bind_pure]
    rfl

theorem reason?_fieldTys : ∀ fields : List (String × TypeTerm),
    reason? (fieldTys fields) = (nodesFields fields).findSome? offence?
  | [] => rfl
  | (name, a) :: rest => by
    have ha := reason?_toTy a
    have hrest := reason?_fieldTys rest
    rw [fieldTys, nodesFields, List.findSome?_append, ← ha, ← hrest]
    exact reason?_bind fun _ => reason?_bind_pure _ _

end

theorem nodes_eq_cons (a : TypeTerm) : ∃ below, a.nodes = a :: below := by
  cases a <;> exact ⟨_, rfl⟩

theorem toTy_of_offence {a : TypeTerm} {error : TypeTermError} (h : a.offence? = some error) :
    a.toTy = .error error := by
  obtain ⟨below, hnodes⟩ := a.nodes_eq_cons
  rw [← reason?_eq_some_iff, reason?_toTy, hnodes, List.findSome?_cons, h]

/-! ## What is below an offence is not looked at -/

theorem toTy_named_congr (name : String) {pairs : List (TypeTerm × TypeTerm)}
    (h : ∀ pair ∈ pairs, pair.1.toTy = pair.2.toTy) :
    (named name (pairs.map Prod.fst)).toTy = (named name (pairs.map Prod.snd)).toTy := by
  rcases pairs with _ | ⟨p, _ | ⟨q, _ | ⟨r, rest⟩⟩⟩
  · rfl
  · have hp := h p (by simp)
    simp only [List.map_cons, List.map_nil]
    rw [toTy, toTy, hp]
  · have hp := h p (by simp)
    have hq := h q (by simp)
    simp only [List.map_cons, List.map_nil]
    rw [toTy, toTy, hp, hq]
  · simp [toTy]

theorem toTy_tuple_congr {pairs : List (TypeTerm × TypeTerm)}
    (h : ∀ pair ∈ pairs, pair.1.toTy = pair.2.toTy) :
    (tuple (pairs.map Prod.fst)).toTy = (tuple (pairs.map Prod.snd)).toTy := by
  rcases pairs with _ | ⟨p, _ | ⟨q, _ | ⟨r, _ | ⟨t, rest⟩⟩⟩⟩
  · rfl
  · simp [toTy]
  · have hp := h p (by simp)
    have hq := h q (by simp)
    simp only [List.map_cons, List.map_nil]
    rw [toTy, toTy, hp, hq]
  · have hp := h p (by simp)
    have hq := h q (by simp)
    have hr := h r (by simp)
    simp only [List.map_cons, List.map_nil]
    rw [toTy, toTy, hp, hq, hr]
  · simp [toTy]

theorem fieldTys_congr {fields : List (String × TypeTerm × TypeTerm)}
    (h : ∀ field ∈ fields, field.2.1.toTy = field.2.2.toTy) :
    fieldTys (fields.map fun field => (field.1, field.2.1)) =
      fieldTys (fields.map fun field => (field.1, field.2.2)) := by
  induction fields with
  | nil => rfl
  | cons field rest ih =>
    obtain ⟨hfield, hrest⟩ := List.forall_mem_cons.1 h
    rw [List.map_cons, List.map_cons, fieldTys, fieldTys, hfield, ih hrest]

theorem SameAbove.toTy_eq {a b : TypeTerm} (h : a.SameAbove b) : a.toTy = b.toTy := by
  induction h with
  | offence ha hb => rw [toTy_of_offence ha, toTy_of_offence hb]
  | unit => rfl
  | named _ ih => exact toTy_named_congr _ ih
  | tuple _ ih => exact toTy_tuple_congr ih
  | record _ ih => rw [toTy, toTy, fieldTys_congr ih]

/-- The first offence, among those of all terms in a type term. -/
theorem exists_first_offence {a : TypeTerm} {error : TypeTermError} (h : a.toTy = .error error) :
    ∃ before node after, a.nodes = before ++ node :: after ∧
      (∀ earlier ∈ before, earlier.offence? = none) ∧ node.offence? = some error := by
  rw [← reason?_eq_some_iff, reason?_toTy, List.findSome?_eq_some_iff] at h
  obtain ⟨before, node, after, hnodes, hnode, hbefore⟩ := h
  exact ⟨before, node, after, hnodes, hbefore, hnode⟩

/-- **Reading a type term undoes writing a type.**  What is written for a type is read as that type,
unless a reference in it has the name of a built-in type, and nothing else is read as any type.  All
other type terms fail for the first offence in them, from left to right and from the outside to the
inside, and what stands below an offence makes no difference. -/
theorem reads_written_or_offends :
    (∀ type : Ty, type.RefersPlainly → type.written.toTy = .ok type) ∧
    (∀ (a : TypeTerm) (type : Ty), a.toTy = .ok type → type.RefersPlainly ∧ a = type.written) ∧
    (∀ a : TypeTerm, (∀ type : Ty, type.RefersPlainly → a ≠ type.written) →
      ∃ before node after error, a.nodes = before ++ node :: after ∧
        (∀ earlier ∈ before, earlier.offence? = none) ∧ node.offence? = some error ∧
        a.toTy = .error error) ∧
    ∀ a b : TypeTerm, a.SameAbove b → a.toTy = b.toTy := by
  refine ⟨fun type h => (type.denotes_written h).toTy_eq, fun a type h => ?_, fun a h => ?_,
    fun a b h => h.toTy_eq⟩
  · have hdenotes := denotes_of_toTy h
    exact ⟨hdenotes.refersPlainly, hdenotes.eq_written⟩
  · cases htoTy : a.toTy with
    | ok type =>
      have hdenotes := denotes_of_toTy htoTy
      exact absurd hdenotes.eq_written (h type hdenotes.refersPlainly)
    | error error =>
      obtain ⟨before, node, after, hnodes, hbefore, hnode⟩ := exists_first_offence htoTy
      exact ⟨before, node, after, error, hnodes, hbefore, hnode, rfl⟩

/-- The rows of a table, or what went wrong. -/
def tableReply : Ty :=
  .result (.named "Problem") (.record [("rows", .list (.pair .int (.maybe (.named "Row"))))])

/-- A record with a dictionary in it, and a function further right.  What the dictionary is from is
left open. -/
def indexWith (key : TypeTerm) : TypeTerm :=
  .record [("rows", .named "List" [.tuple [.named "Int" [], .named "Dict" [key, .unit]]]),
    ("step", .function .unit .unit)]

/-- The dictionary is the first offence in the second term, whatever stands below it. -/
theorem reads_written_or_offends_table :
    tableReply.RefersPlainly ∧ tableReply.written.toTy = .ok tableReply ∧
    (indexWith (.var "k")).SameAbove (indexWith .unit) ∧
    (indexWith (.var "k")).toTy = (indexWith .unit).toTy ∧
    ∃ before node after error, (indexWith (.var "k")).nodes = before ++ node :: after ∧
      (∀ earlier ∈ before, earlier.offence? = none) ∧ node.offence? = some error ∧
      (indexWith (.var "k")).toTy = .error error ∧ error = .applied "Dict" := by
  obtain ⟨hwritten, -, hoffends, hsame⟩ := reads_written_or_offends
  have hplain : tableReply.RefersPlainly := by decide
  have herror : (indexWith (.var "k")).toTy = .error (.applied "Dict") := rfl
  have hindex : (indexWith (.var "k")).SameAbove (indexWith .unit) := by
    have hdict : (named "Dict" [.var "k", .unit]).SameAbove (.named "Dict" [.unit, .unit]) :=
      .offence rfl rfl
    have hint : (named "Int" []).SameAbove (.named "Int" []) :=
      @SameAbove.named "Int" [] (List.forall_mem_nil _)
    have hpair := @SameAbove.tuple [(_, _), (_, _)]
      (List.forall_mem_cons.2 ⟨hint, List.forall_mem_singleton.2 hdict⟩)
    have hrows := @SameAbove.named "List" [(_, _)] (List.forall_mem_singleton.2 hpair)
    have hstep : (function .unit .unit).SameAbove (.function .unit .unit) := .offence rfl rfl
    exact @SameAbove.record [("rows", _, _), ("step", _, _)]
      (List.forall_mem_cons.2 ⟨hrows, List.forall_mem_singleton.2 hstep⟩)
  refine ⟨hplain, hwritten _ hplain, hindex, hsame _ _ hindex, ?_⟩
  have hnot : ∀ type : Ty, type.RefersPlainly → indexWith (.var "k") ≠ type.written := by
    intro type htype heq
    rw [heq, hwritten type htype] at herror
    cases herror
  obtain ⟨before, node, after, error, hnodes, hbefore, hnode, htoTy⟩ := hoffends _ hnot
  rw [herror] at htoTy
  cases htoTy
  exact ⟨before, node, after, _, hnodes, hbefore, hnode, herror, rfl⟩

end TypeTerm
end Source
end ElmWire
