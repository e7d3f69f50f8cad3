import ElmWire.Proofs.Json.Fields
import ElmWire.Source.Json

/-!
# The spellings of a module

A module has many spellings in JSON: the members of every object stand in any order, there may be
others that mean nothing, and the empty lists of imports, declarations, parameters and arguments may
be left out.  `Module.Spelled m form` says which forms these are, with one rule for each kind of
type term and declaration.

`TypeTerm.Spelled.nested?_eq`, `Declaration.Spelled.ofForm?_eq` and `Module.Spelled.ofForm?_eq` say
what the readers make of them: **whatever a form spells is what is read from it.**  Exposing clauses
and declarations are taken in as a whole before their kind is known, so there everything has to have
a value, also what is passed over afterwards; elsewhere it need not
(`Module.Spelled.ofForm?_eq_none`).
-/

set_option autoImplicit false
namespace ElmWire.Source

open Json (Form)
open Json.Form (Gives MayLeaveOut required optional)

/-! ## The rules -/

/-- A string as a form. -/
def textForm (s : String) : Form := .string (some s)

/-- Data of the kind `kind` with the given fields. -/
def Tagged (kind : String) (fields : List (String × Option Form)) (form : Form) : Prop :=
  Gives (("kind", some (textForm kind)) :: fields) form

/-- The form spells the exposing clause. -/
inductive Exposing.Spelled : Exposing → Form → Prop
  | all {form : Form} (h : Tagged "all" [] form) : Exposing.Spelled .all form
  | explicit {names : List String} {form : Form}
      (h : Tagged "explicit" [("names", some (.array (names.map textForm)))] form) :
      Exposing.Spelled (.explicit names) form

/-- The form spells the import. -/
def Import.Spelled (i : Import) (form : Form) : Prop :=
  Gives [("module", some (textForm i.name))] form

/-- A field of a record, with the forms of its type and of the whole field. -/
structure FieldSpelling where
  name : String
  written : TypeTerm
  /-- The form of the type. -/
  part : Form
  form : Form

/-- The form of a field gives its name and the form of its type. -/
def FieldSpelling.Gives (field : FieldSpelling) : Prop :=
  Form.Gives [("name", some (textForm field.name)), ("annotation", some field.part)] field.form

/-- The form spells the type term. -/
inductive TypeTerm.Spelled : TypeTerm → Form → Prop
  | var {name : String} {form : Form}
      (h : Tagged "genericType" [("name", some (textForm name))] form) :
      TypeTerm.Spelled (.var name) form
  | named {name : String} {arguments : List (TypeTerm × Form)} {given : Option Form} {form : Form}
      (harguments : ∀ argument ∈ arguments, TypeTerm.Spelled argument.1 argument.2)
      (hgiven : MayLeaveOut (arguments.map Prod.snd) given)
      (h : Tagged "typed" [("name", some (textForm name)), ("arguments", given)] form) :
      TypeTerm.Spelled (.named name (arguments.map Prod.fst)) form
  | unit {form : Form} (h : Tagged "unit" [] form) : TypeTerm.Spelled .unit form
  | tuple {items : List (TypeTerm × Form)} {form : Form}
      (hitems : ∀ item ∈ items, TypeTerm.Spelled item.1 item.2)
      (h : Tagged "tupled" [("items", some (.array (items.map Prod.snd)))] form) :
      TypeTerm.Spelled (.tuple (items.map Prod.fst)) form
  | record {fields : List FieldSpelling} {form : Form}
      (hfields : ∀ field ∈ fields, TypeTerm.Spelled field.written field.part)
      (hforms : ∀ field ∈ fields, field.Gives)
      (h : Tagged "record" [("fields", some (.array (fields.map FieldSpelling.form)))] form) :
      TypeTerm.Spelled (.record (fields.map fun field => (field.name, field.written))) form
  | extension {base : String} {fields : List FieldSpelling} {form : Form}
      (hfields : ∀ field ∈ fields, TypeTerm.Spelled field.written field.part)
      (hforms : ∀ field ∈ fields, field.Gives)
      (h : Tagged "genericRecord" [("variable", some (textForm base)),
        ("fields", some (.array (fields.map FieldSpelling.form)))] form) :
      TypeTerm.Spelled (.extension base (fields.map fun field => (field.name, field.written))) form
  | function {argument result : TypeTerm} {argumentForm resultForm form : Form}
      (hargument : TypeTerm.Spelled argument argumentForm)
      (hresult : TypeTerm.Spelled result resultForm)
      (h : Tagged "function" [("argument", some argumentForm), ("result", some resultForm)] form) :
      TypeTerm.Spelled (.function argument result) form

/-- The form spells the constructor. -/
inductive Constructor.Spelled : Constructor → Form → Prop
  | intro {name : String} {arguments : List (TypeTerm × Form)} {given : Option Form} {form : Form}
      (harguments : ∀ argument ∈ arguments, argument.1.Spelled argument.2)
      (hgiven : MayLeaveOut (arguments.map Prod.snd) given)
      (h : Gives [("name", some (textForm name)), ("arguments", given)] form) :
      Constructor.Spelled ⟨name, arguments.map Prod.fst⟩ form

/-- The form spells the declaration. -/
inductive Declaration.Spelled : Declaration → Form → Prop
  | value {name : String} {form : Form} (h : Tagged "value" [("name", some (textForm name))] form) :
      Declaration.Spelled (.value name) form
  | destructuring {form : Form} (h : Tagged "destructuring" [] form) :
      Declaration.Spelled .destructuring form
  | alias {name : String} {parameters : List String} {given : Option Form} {written : TypeTerm}
      {part form : Form} (hgiven : MayLeaveOut (parameters.map textForm) given)
      (hwritten : written.Spelled part)
      (h : Tagged "typeAlias" [("name", some (textForm name)), ("generics", given),
        ("annotation", some part)] form) :
      Declaration.Spelled (.alias name parameters written) form
  | custom {name : String} {parameters : List String} {given : Option Form}
      {constructors : List (Constructor × Form)} {form : Form}
      (hgiven : MayLeaveOut (parameters.map textForm) given)
      (hconstructors : ∀ ctor ∈ constructors, ctor.1.Spelled ctor.2)
      (h : Tagged "customType" [("name", some (textForm name)), ("generics", given),
        ("constructors", some (.array (constructors.map Prod.snd)))] form) :
      Declaration.Spelled (.custom name parameters (constructors.map Prod.fst)) form
  | port {name : String} {written : TypeTerm} {part form : Form} (hwritten : written.Spelled part)
      (h : Tagged "portSignature"
        [("name", some (textForm name)), ("annotation", some part)] form) :
      Declaration.Spelled (.port name written) form
  | operator {symbol function : String} {form : Form}
      (h : Tagged "infix" [("operator", some (textForm symbol)),
        ("function", some (textForm function))] form) :
      Declaration.Spelled (.operator symbol function) form

/-- The form spells the module. -/
inductive Module.Spelled : Module → Form → Prop
  | intro {name : String} {kind : ModuleKind} {exposing : Exposing} {imports : List (Import × Form)}
      {declarations : List (Declaration × Form)} {exposingForm form : Form}
      {importsGiven declarationsGiven : Option Form} (hexposing : exposing.Spelled exposingForm)
      (himports : ∀ entry ∈ imports, entry.1.Spelled entry.2)
      (himportsGiven : MayLeaveOut (imports.map Prod.snd) importsGiven)
      (hdeclarations : ∀ entry ∈ declarations, entry.1.Spelled entry.2)
      (hdeclarationsGiven : MayLeaveOut (declarations.map Prod.snd) declarationsGiven)
      (h : Gives [("name", some (textForm name)), ("kind", some (textForm kind.word)),
        ("exposing", some exposingForm), ("imports", importsGiven),
        ("declarations", declarationsGiven)] form) :
      Module.Spelled
        ⟨name, kind, exposing, imports.map Prod.fst, declarations.map Prod.fst⟩ form

/-! ## Reading names, imports and exposing clauses -/

@[simp] theorem text?_textForm (s : String) : (textForm s).text? = some s := rfl

theorem names?_eq (names : List String) : names? (.array (names.map textForm)) = some names := by
  have h : (names.map textForm).mapM Form.text? = some (names.map id) :=
    mapM_map_eq_some fun _ _ => rfl
  rwa [List.map_id] at h

theorem optional_names {names : List String} {given : Option Form}
    (h : MayLeaveOut (names.map textForm) given) : optional [] names? given = some names := by
  generalize hitems : names.map textForm = items at h
  cases h with
  | written => rw [← hitems]; exact names?_eq names
  | leftOut => rw [List.map_eq_nil_iff.1 hitems]; rfl

section

variable {kind : String} {fields : List (String × Option Form)} {form : Form}

/-- The kind of tagged data is found, and what is left gives the fields. -/
theorem Tagged.exists_tagged? (h : Tagged kind fields form)
    (hnodup : ("kind" :: fields.map Prod.fst).Nodup) :
    ∃ rest, form.tagged? "kind" = some (textForm kind, rest) ∧ Gives fields rest :=
  Gives.exists_tagged? h hnodup

theorem Tagged.exists_tagged (h : Tagged kind fields form)
    (hnodup : ("kind" :: fields.map Prod.fst).Nodup) (kinds : List String) (hkind : kind ∈ kinds)
    (hvalue : form.evaluate?.isSome) :
    ∃ rest, tagged? kinds form = some (kind, rest) ∧ Gives fields rest := by
  obtain ⟨rest, htagged, hrest⟩ := h.exists_tagged? hnodup
  obtain ⟨json, hjson⟩ := Option.isSome_iff_exists.1 hvalue
  refine ⟨rest, ?_, hrest⟩
  simp [tagged?, htagged, hjson, Form.kind?, hkind]

/-- Tagged data that stands on its own is taken in as a whole. -/
theorem tagged?_eq_none (kinds : List String) (h : form.evaluate? = none) :
    tagged? kinds form = none := by
  cases htagged : form.tagged? "kind" <;> simp [tagged?, htagged, h]

theorem noFields?_of_gives (h : Gives fields form) : form.noFields? = some () := by
  cases h
  rfl

end

theorem Exposing.Spelled.ofForm?_eq {exposing : Exposing} {form : Form} (h : exposing.Spelled form)
    (hvalue : form.evaluate?.isSome) : Exposing.ofForm? form = some exposing := by
  cases h with
  | all h =>
    obtain ⟨rest, htagged, hrest⟩ :=
      h.exists_tagged (by simp) ["all", "explicit"] (by simp) hvalue
    rw [Exposing.ofForm?, htagged]
    simp [noFields?_of_gives hrest]
  | @explicit names _ h =>
    obtain ⟨rest, htagged, hrest⟩ :=
      h.exists_tagged (by simp) ["all", "explicit"] (by simp) hvalue
    have hfields : rest.fields? ["names"] = some [some (.array (names.map textForm))] :=
      hrest.fields?_eq (by simp)
    rw [Exposing.ofForm?, htagged]
    simp [hfields, required, names?_eq]

theorem Exposing.ofForm?_eq_none {form : Form} (h : form.evaluate? = none) :
    Exposing.ofForm? form = none := by
  rw [Exposing.ofForm?, tagged?_eq_none _ h]
  rfl

theorem Import.Spelled.ofForm?_eq {i : Import} {form : Form} (h : i.Spelled form) :
    Import.ofForm? form = some i := by
  have hfields : form.fields? ["module"] = some [some (textForm i.name)] := h.fields?_eq (by simp)
  simp [Import.ofForm?, hfields, required]

/-! ## Reading type terms -/

theorem fieldOfForm?_of_gives {part? : Form → Option TypeTerm} {field : FieldSpelling}
    (h : field.Gives) (hpart : part? field.part = some field.written) :
    fieldOfForm? part? field.form = some (field.name, field.written) := by
  have hfields : field.form.fields? ["name", "annotation"] =
      some [some (textForm field.name), some field.part] := Gives.fields?_eq h (by simp)
  simp [fieldOfForm?, hfields, required, hpart]

theorem list?_fields {part? : Form → Option TypeTerm} {fields : List FieldSpelling}
    (h : ∀ field ∈ fields, field.Gives)
    (hparts : ∀ field ∈ fields, part? field.part = some field.written) :
    Form.list? (fieldOfForm? part?) (.array (fields.map FieldSpelling.form)) =
      some (fields.map fun field => (field.name, field.written)) :=
  mapM_map_eq_some fun field hfield =>
    fieldOfForm?_of_gives (h field hfield) (hparts field hfield)

/-- Reading a nested type term goes on with its fields, whose forms are nested less deep. -/
theorem Tagged.exists_nested? {kind : String} {fields : List (String × Option Form)} {form : Form}
    (h : Tagged kind fields form) (hnodup : ("kind" :: fields.map Prod.fst).Nodup)
    (hkind : kind ∈ typeTermKinds) {n : Nat} (hdepth : form.depth ≤ n) :
    ∃ k rest, TypeTerm.nested? n form = TypeTerm.ofFields? (TypeTerm.nested? k) kind rest ∧
      rest.fields? (fields.map Prod.fst) = some (fields.map Prod.snd) ∧ rest.noFields? = some () ∧
      ∀ part, some part ∈ fields.map Prod.snd → part.depth ≤ k := by
  obtain ⟨rest, htagged, hrest⟩ := h.exists_tagged? hnodup
  have hpos : 0 < form.depth := Nat.zero_lt_of_lt (h.depth_lt (List.mem_cons_self ..))
  obtain ⟨k, rfl⟩ : ∃ k, n = k + 1 := ⟨n - 1, by omega⟩
  refine ⟨k, rest, ?_, hrest.fields?_eq (List.nodup_cons.1 hnodup).2, noFields?_of_gives hrest,
    fun part hpart => ?_⟩
  · simp [TypeTerm.nested?, htagged, Form.kind?, hkind]
  · have hlt := h.depth_lt (List.mem_cons_of_mem _ hpart)
    omega

/-- The parts of fields that are nested less than `n` deep are too. -/
theorem FieldSpelling.depth_le {fields : List FieldSpelling} (h : ∀ field ∈ fields, field.Gives)
    {n : Nat} (hdepth : (Form.array (fields.map FieldSpelling.form)).depth ≤ n) :
    ∀ field ∈ fields, field.part.depth ≤ n := by
  intro field hmem
  have hform := Form.depth_lt_array (List.mem_map_of_mem hmem : field.form ∈ fields.map form)
  have hpart : field.part.depth < field.form.depth := Gives.depth_lt (h field hmem) (by simp)
  omega

/-- **What spells a type term is read as it.** -/
theorem TypeTerm.Spelled.nested?_eq {term : TypeTerm} {form : Form} (h : term.Spelled form)
    {n : Nat} (hdepth : form.depth ≤ n) : TypeTerm.nested? n form = some term := by
  induction h generalizing n with
  | var h =>
    obtain ⟨k, rest, hnested, hfields, -, -⟩ := h.exists_nested? (by simp) (by decide) hdepth
    simp only [List.map_cons, List.map_nil] at hfields
    rw [hnested, ofFields?, hfields]
    rfl
  | @named name arguments given form _ hgiven h ih =>
    obtain ⟨k, rest, hnested, hfields, -, hparts⟩ := h.exists_nested? (by simp) (by decide) hdepth
    simp only [List.map_cons, List.map_nil] at hfields
    have hread : ∀ argument ∈ arguments, nested? k argument.2 = some argument.1 := by
      intro argument hmem
      have hlt := hgiven.depth_lt (fun part hpart => hparts part (by simp [hpart])) argument.2
        (List.mem_map_of_mem hmem)
      exact ih argument hmem hlt.le
    rw [hnested, ofFields?, hfields]
    simp [required, hgiven.optional_eq hread]
  | unit h =>
    obtain ⟨k, rest, hnested, -, hnone, -⟩ := h.exists_nested? (by simp) (by decide) hdepth
    rw [hnested, ofFields?, hnone]
    rfl
  | @tuple items form _ h ih =>
    obtain ⟨k, rest, hnested, hfields, -, hparts⟩ := h.exists_nested? (by simp) (by decide) hdepth
    simp only [List.map_cons, List.map_nil] at hfields
    have hread : ∀ item ∈ items, nested? k item.2 = some item.1 := by
      intro item hmem
      have hlt := Form.depth_lt_array (List.mem_map_of_mem hmem : item.2 ∈ items.map Prod.snd)
      exact ih item hmem (hlt.le.trans (hparts _ (by simp)))
    rw [hnested, ofFields?, hfields]
    simp [required, Form.list?_eq hread]
  | @record fields form _ hforms h ih =>
    obtain ⟨k, rest, hnested, hfields, -, hparts⟩ := h.exists_nested? (by simp) (by decide) hdepth
    simp only [List.map_cons, List.map_nil] at hfields
    have hdepths := FieldSpelling.depth_le hforms (hparts _ (by simp))
    have hread := list?_fields hforms fun field hmem => ih field hmem (hdepths field hmem)
    rw [hnested, ofFields?, hfields]
    simp [required, hread]
  | @extension base fields form _ hforms h ih =>
    obtain ⟨k, rest, hnested, hfields, -, hparts⟩ := h.exists_nested? (by simp) (by decide) hdepth
    simp only [List.map_cons, List.map_nil] at hfields
    have hdepths := FieldSpelling.depth_le hforms (hparts _ (by simp))
    have hread := list?_fields hforms fun field hmem => ih field hmem (hdepths field hmem)
    rw [hnested, ofFields?, hfields]
    simp [required, hread]
  | @function argument result argumentForm resultForm form _ _ h hargument hresult =>
    obtain ⟨k, rest, hnested, hfields, -, hparts⟩ := h.exists_nested? (by simp) (by decide) hdepth
    simp only [List.map_cons, List.map_nil] at hfields
    rw [hnested, ofFields?, hfields]
    simp [required, hargument (hparts argumentForm (by simp)),
      hresult (hparts resultForm (by simp))]

/-! ## Reading declarations and modules -/

theorem Constructor.Spelled.ofForm?_eq {ctor : Constructor} {form : Form} (h : ctor.Spelled form)
    {n : Nat} (hdepth : form.depth ≤ n) :
    Constructor.ofForm? (TypeTerm.nested? n) form = some ctor := by
  obtain @⟨name, arguments, given, _, harguments, hgiven, h⟩ := h
  have hfields : form.fields? ["name", "arguments"] = some [some (textForm name), given] :=
    h.fields?_eq (by simp)
  have hread : ∀ argument ∈ arguments, TypeTerm.nested? n argument.2 = some argument.1 := by
    intro argument hmem
    have hlt := hgiven.depth_lt (fun part hpart => (h.depth_lt (by simp [hpart])).le) argument.2
      (List.mem_map_of_mem hmem)
    exact (harguments argument hmem).nested?_eq (hlt.le.trans hdepth)
  simp [Constructor.ofForm?, hfields, required, hgiven.optional_eq hread]

/-- **What spells a declaration is read as it**, if it has a value. -/
theorem Declaration.Spelled.ofForm?_eq {declaration : Declaration} {form : Form}
    (h : declaration.Spelled form) (hvalue : form.evaluate?.isSome) :
    Declaration.ofForm? form = some declaration := by
  cases h with
  | @value name _ h =>
    obtain ⟨rest, htagged, hrest⟩ := h.exists_tagged (by simp) declarationKinds (by decide) hvalue
    have hfields : rest.fields? ["name"] = some [some (textForm name)] := hrest.fields?_eq (by simp)
    simp [Declaration.ofForm?, htagged, hfields, required]
  | destructuring h =>
    obtain ⟨rest, htagged, hrest⟩ := h.exists_tagged (by simp) declarationKinds (by decide) hvalue
    simp [Declaration.ofForm?, htagged, noFields?_of_gives hrest]
  | @«alias» name parameters given written part _ hgiven hwritten h =>
    obtain ⟨rest, htagged, hrest⟩ := h.exists_tagged (by simp) declarationKinds (by decide) hvalue
    have hfields : rest.fields? ["name", "generics", "annotation"] =
        some [some (textForm name), given, some part] := hrest.fields?_eq (by simp)
    have hpart := hwritten.nested?_eq (h.depth_lt (by simp)).le
    simp [Declaration.ofForm?, htagged, hfields, required, optional_names hgiven, hpart]
  | @custom name parameters given constructors _ hgiven hconstructors h =>
    obtain ⟨rest, htagged, hrest⟩ := h.exists_tagged (by simp) declarationKinds (by decide) hvalue
    have hfields : rest.fields? ["name", "generics", "constructors"] =
        some [some (textForm name), given, some (.array (constructors.map Prod.snd))] :=
      hrest.fields?_eq (by simp)
    have hread : ∀ ctor ∈ constructors,
        Constructor.ofForm? (TypeTerm.nested? form.depth) ctor.2 = some ctor.1 := by
      intro ctor hmem
      have hlist := Form.depth_lt_array
        (List.mem_map_of_mem hmem : ctor.2 ∈ constructors.map Prod.snd)
      have hlt : (Form.array (constructors.map Prod.snd)).depth < form.depth := h.depth_lt (by simp)
      exact (hconstructors ctor hmem).ofForm?_eq (hlist.trans hlt).le
    simp [Declaration.ofForm?, htagged, hfields, required, optional_names hgiven,
      Form.list?_eq hread]
  | @port name written part _ hwritten h =>
    obtain ⟨rest, htagged, hrest⟩ := h.exists_tagged (by simp) declarationKinds (by decide) hvalue
    have hfields : rest.fields? ["name", "annotation"] = some [some (textForm name), some part] :=
      hrest.fields?_eq (by simp)
    have hpart := hwritten.nested?_eq (h.depth_lt (by simp)).le
    simp [Declaration.ofForm?, htagged, hfields, required, hpart]
  | @operator symbol function _ h =>
    obtain ⟨rest, htagged, hrest⟩ := h.exists_tagged (by simp) declarationKinds (by decide) hvalue
    have hfields : rest.fields? ["operator", "function"] =
        some [some (textForm symbol), some (textForm function)] := hrest.fields?_eq (by simp)
    simp [Declaration.ofForm?, htagged, hfields, required]

theorem Declaration.ofForm?_eq_none {form : Form} (h : form.evaluate? = none) :
    Declaration.ofForm? form = none := by
  rw [Declaration.ofForm?, tagged?_eq_none _ h]
  rfl

theorem ModuleKind.ofForm?_word (kind : ModuleKind) :
    ModuleKind.ofForm? (textForm kind.word) = some kind := by
  cases kind <;> decide

/-- The members of a module that are taken in as a whole. -/
def wholeMembers : List String := ["exposing", "declarations"]

/-- The members that are taken in as a whole have values if what is given for them has. -/
theorem hasValuesAt_wholeMembers_iff {name kind exposing form : Form}
    {importsGiven declarationsGiven : Option Form}
    (h : Gives [("name", some name), ("kind", some kind), ("exposing", some exposing),
      ("imports", importsGiven), ("declarations", declarationsGiven)] form) :
    form.HasValuesAt wholeMembers ↔
      exposing.evaluate?.isSome ∧ ∀ part ∈ declarationsGiven, part.evaluate?.isSome := by
  rw [h.hasValuesAt_iff (by simp [wholeMembers])]
  simp [wholeMembers]

/-- **What spells a module is read as it**, if its exposing clause and its declarations have
values. -/
theorem Module.Spelled.ofForm?_eq {m : Module} {form : Form} (h : m.Spelled form)
    (hvalues : form.HasValuesAt wholeMembers) : Module.ofForm? form = some m := by
  obtain @⟨name, kind, exposing, imports, declarations, exposingForm, _, importsGiven,
    declarationsGiven, hexposing, himports, himportsGiven, hdeclarations, hdeclarationsGiven,
    h⟩ := h
  have hfields : form.fields? ["name", "kind", "exposing", "imports", "declarations"] =
      some [some (textForm name), some (textForm kind.word), some exposingForm, importsGiven,
        declarationsGiven] := h.fields?_eq (by simp)
  obtain ⟨hexposingValue, hgivenValue⟩ := (hasValuesAt_wholeMembers_iff h).1 hvalues
  have hdeclarationsValue := hdeclarationsGiven.isSome_evaluate?_iff.1 hgivenValue
  have hreadExposing := hexposing.ofForm?_eq hexposingValue
  have hreadImports := himportsGiven.optional_eq fun entry hmem =>
    (himports entry hmem).ofForm?_eq
  have hreadDeclarations := hdeclarationsGiven.optional_eq fun entry hmem =>
    (hdeclarations entry hmem).ofForm?_eq (hdeclarationsValue entry.2 (List.mem_map_of_mem hmem))
  simp [Module.ofForm?, hfields, required, ModuleKind.ofForm?_word, hreadExposing, hreadImports,
    hreadDeclarations]

/-- Where the exposing clause or a declaration has no value, nothing is read. -/
theorem Module.Spelled.ofForm?_eq_none {m : Module} {form : Form} (h : m.Spelled form)
    (hvalues : ¬ form.HasValuesAt wholeMembers) : Module.ofForm? form = none := by
  obtain @⟨name, kind, exposing, imports, declarations, exposingForm, _, importsGiven,
    declarationsGiven, -, -, -, -, hdeclarationsGiven, h⟩ := h
  have hfields : form.fields? ["name", "kind", "exposing", "imports", "declarations"] =
      some [some (textForm name), some (textForm kind.word), some exposingForm, importsGiven,
        declarationsGiven] := h.fields?_eq (by simp)
  rw [hasValuesAt_wholeMembers_iff h, hdeclarationsGiven.isSome_evaluate?_iff] at hvalues
  by_cases hexposing : exposingForm.evaluate?.isSome
  · simp only [hexposing, true_and, not_forall, Option.not_isSome_iff_eq_none] at hvalues
    obtain ⟨item, hitem, hnone⟩ := hvalues
    have hread := hdeclarationsGiven.optional_eq_none hitem (Declaration.ofForm?_eq_none hnone)
    simp [Module.ofForm?, hfields, hread]
  · have hread := Exposing.ofForm?_eq_none (Option.not_isSome_iff_eq_none.1 hexposing)
    simp [Module.ofForm?, hfields, required, hread]

end ElmWire.Source
