import ElmWire.Proofs.Json.Printing
import ElmWire.Proofs.Source.Spelling

/-!
# Reading modules from text

`Module.toJson` writes a module with all its members, in a fixed order.  That is one of the
spellings of the module (`Module.spelled_toJson`), and all of them are read alike.

* `Module.reads_every_spelling` — **a text that spells a module is read as that module** if what it
  has for the exposing clause and the declarations has a value, and not at all otherwise.  What is
  printed for a module is read as it.
* `Module.parse?_beyondRange` — a number out of range, in a member of the exposing clause that is
  passed over, keeps a module from being read.
-/

set_option autoImplicit false
namespace ElmWire.Source

open Json (Form)
open Json.Form (Gives)

/-! ## What is written -/

/-- An object that was written gives its members as fields. -/
theorem gives_form (members : List (String × Json)) :
    Gives (members.map fun member => (member.1, some member.2.form))
      (Json.object members).form := by
  have hgiven : Form.givenMembers (members.map fun member => (member.1, some member.2.form)) =
      members.map fun member => (member.1, member.2.form) := by
    simp [Form.givenMembers, List.filterMap_map]
  have hforms : Json.memberForms members =
      (members.map fun member => (member.1, member.2.form)).map fun member =>
        (some member.1, member.2) := by
    rw [Json.memberForms_eq, List.map_map]
    rfl
  have hperm : (members.map fun member => (member.1, member.2.form)).Perm
      (Form.givenMembers (members.map fun member => (member.1, some member.2.form)) ++ []) := by
    rw [hgiven, List.append_nil]
  rw [Json.form, hforms]
  exact .intro (by simp) hperm

theorem tagged_form (kind : String) (members : List (String × Json)) :
    Tagged kind (members.map fun member => (member.1, some member.2.form))
      (Json.object (("kind", .string kind) :: members)).form :=
  gives_form (("kind", .string kind) :: members)

theorem form_array (items : List Json) :
    (Json.array items).form = .array (items.map Json.form) := by
  rw [Json.form, Json.itemForms_eq]

theorem form_namesToJson (names : List String) :
    (namesToJson names).form = .array (names.map textForm) := by
  rw [namesToJson, form_array, List.map_map]
  rfl

section

variable {α : Type} (toJson : α → Json) (as : List α)

/-- Things together with the forms that are written for them. -/
def withForms : List (α × Form) := as.map fun a => (a, (toJson a).form)

theorem map_fst_withForms : (withForms toJson as).map Prod.fst = as := by
  simp [withForms, Function.comp_def]

theorem form_array_map : (Json.array (as.map toJson)).form =
    .array ((withForms toJson as).map Prod.snd) := by
  rw [form_array, withForms, List.map_map, List.map_map]
  rfl

theorem forall_mem_withForms {toJson : α → Json} {as : List α} {Spelled : α → Form → Prop}
    (h : ∀ a ∈ as, Spelled a (toJson a).form) :
    ∀ entry ∈ withForms toJson as, Spelled entry.1 entry.2 :=
  List.forall_mem_map.2 h

end

theorem Exposing.spelled_toJson (exposing : Exposing) : exposing.Spelled exposing.toJson.form := by
  cases exposing with
  | all => exact .all (tagged_form "all" [])
  | explicit names =>
    have h := tagged_form "explicit" [("names", namesToJson names)]
    rw [List.map_singleton, form_namesToJson] at h
    exact .explicit h

theorem Import.spelled_toJson (i : Import) : i.Spelled i.toJson.form :=
  gives_form [("module", .string i.name)]

theorem typeTermsToJson_eq (terms : List TypeTerm) :
    typeTermsToJson terms = terms.map TypeTerm.toJson := by
  induction terms with
  | nil => rfl
  | cons term terms ih => rw [typeTermsToJson, ih, List.map_cons]

/-- The field as it is written. -/
def FieldSpelling.ofField (field : String × TypeTerm) : FieldSpelling where
  name := field.1
  written := field.2
  part := field.2.toJson.form
  form := (Json.object [("name", .string field.1), ("annotation", field.2.toJson)]).form

theorem FieldSpelling.gives_ofField (field : String × TypeTerm) : (ofField field).Gives :=
  gives_form [("name", .string field.1), ("annotation", field.2.toJson)]

theorem form_fieldsToJson (fields : List (String × TypeTerm)) :
    (fieldsToJson fields).map Json.form =
      (fields.map FieldSpelling.ofField).map FieldSpelling.form := by
  induction fields with
  | nil => rfl
  | cons field fields ih =>
    rw [fieldsToJson, List.map_cons, List.map_cons, List.map_cons, ih]
    rfl

theorem map_ofField (fields : List (String × TypeTerm)) :
    ((fields.map FieldSpelling.ofField).map fun field => (field.name, field.written)) = fields := by
  rw [List.map_map]
  exact List.map_id fields

mutual

/-- What is written for a type term spells it. -/
theorem TypeTerm.spelled_toJson (term : TypeTerm) : term.Spelled term.toJson.form := by
  match term with
  | .var name => exact .var (tagged_form "genericType" [("name", .string name)])
  | .named name arguments =>
    have harguments := forall_mem_withForms (spelled_typeTermsToJson arguments)
    have h := tagged_form "typed"
      [("name", .string name), ("arguments", .array (typeTermsToJson arguments))]
    rw [List.map_cons, List.map_singleton, typeTermsToJson_eq, form_array_map] at h
    have hspelled := TypeTerm.Spelled.named harguments (.written _) h
    rwa [map_fst_withForms, ← typeTermsToJson_eq] at hspelled
  | .unit => exact .unit (tagged_form "unit" [])
  | .tuple items =>
    have hitems := forall_mem_withForms (spelled_typeTermsToJson items)
    have h := tagged_form "tupled" [("items", .array (typeTermsToJson items))]
    rw [List.map_singleton, typeTermsToJson_eq, form_array_map] at h
    have hspelled := TypeTerm.Spelled.tuple hitems h
    rwa [map_fst_withForms, ← typeTermsToJson_eq] at hspelled
  | .record fields =>
    have h := tagged_form "record" [("fields", .array (fieldsToJson fields))]
    rw [List.map_singleton, form_array, form_fieldsToJson] at h
    have hspelled := TypeTerm.Spelled.record (List.forall_mem_map.2 (spelled_fieldsToJson fields))
      (List.forall_mem_map.2 fun field _ => FieldSpelling.gives_ofField field) h
    rwa [map_ofField] at hspelled
  | .extension base fields =>
    have h := tagged_form "genericRecord"
      [("variable", .string base), ("fields", .array (fieldsToJson fields))]
    rw [List.map_cons, List.map_singleton, form_array, form_fieldsToJson] at h
    have hspelled := TypeTerm.Spelled.extension
      (List.forall_mem_map.2 (spelled_fieldsToJson fields))
      (List.forall_mem_map.2 fun field _ => FieldSpelling.gives_ofField field) h
    rwa [map_ofField] at hspelled
  | .function argument result =>
    exact .function argument.spelled_toJson result.spelled_toJson
      (tagged_form "function" [("argument", argument.toJson), ("result", result.toJson)])

theorem spelled_typeTermsToJson (terms : List TypeTerm) :
    ∀ term ∈ terms, term.Spelled term.toJson.form := by
  match terms with
  | [] => simp
  | term :: terms =>
    exact List.forall_mem_cons.2 ⟨term.spelled_toJson, spelled_typeTermsToJson terms⟩

theorem spelled_fieldsToJson (fields : List (String × TypeTerm)) :
    ∀ field ∈ fields, field.2.Spelled field.2.toJson.form := by
  match fields with
  | [] => simp
  | (name, term) :: fields =>
    exact List.forall_mem_cons.2 ⟨term.spelled_toJson, spelled_fieldsToJson fields⟩

end

theorem Constructor.spelled_toJson (ctor : Constructor) : ctor.Spelled ctor.toJson.form := by
  have harguments := forall_mem_withForms (spelled_typeTermsToJson ctor.arguments)
  have h := gives_form
    [("name", .string ctor.name), ("arguments", .array (ctor.arguments.map TypeTerm.toJson))]
  rw [List.map_cons, List.map_singleton, form_array_map] at h
  have hspelled := Constructor.Spelled.intro harguments (.written _) h
  rwa [map_fst_withForms] at hspelled

/-- What is written for a declaration spells it. -/
theorem Declaration.spelled_toJson (declaration : Declaration) :
    declaration.Spelled declaration.toJson.form := by
  cases declaration with
  | value name => exact .value (tagged_form "value" [("name", .string name)])
  | destructuring => exact .destructuring (tagged_form "destructuring" [])
  | «alias» name parameters written =>
    have h := tagged_form "typeAlias" [("name", .string name), ("generics", namesToJson parameters),
      ("annotation", written.toJson)]
    rw [List.map_cons, List.map_cons, List.map_singleton, form_namesToJson] at h
    exact .alias (.written _) written.spelled_toJson h
  | custom name parameters constructors =>
    have hconstructors : ∀ entry ∈ withForms Constructor.toJson constructors,
        entry.1.Spelled entry.2 := forall_mem_withForms fun ctor _ => ctor.spelled_toJson
    have h := tagged_form "customType" [("name", .string name),
      ("generics", namesToJson parameters),
      ("constructors", .array (constructors.map Constructor.toJson))]
    rw [List.map_cons, List.map_cons, List.map_singleton, form_namesToJson, form_array_map] at h
    have hspelled := Declaration.Spelled.custom (.written _) hconstructors h
    rwa [map_fst_withForms] at hspelled
  | port name written =>
    exact .port written.spelled_toJson
      (tagged_form "portSignature" [("name", .string name), ("annotation", written.toJson)])
  | operator symbol function =>
    exact .operator
      (tagged_form "infix" [("operator", .string symbol), ("function", .string function)])

/-- **What is written for a module spells it.** -/
theorem Module.spelled_toJson (m : Module) : m.Spelled m.toJson.form := by
  have himports : ∀ entry ∈ withForms Import.toJson m.imports, entry.1.Spelled entry.2 :=
    forall_mem_withForms fun i _ => i.spelled_toJson
  have hdeclarations : ∀ entry ∈ withForms Declaration.toJson m.declarations,
      entry.1.Spelled entry.2 :=
    forall_mem_withForms fun declaration _ => declaration.spelled_toJson
  have h := gives_form [("name", .string m.name), ("kind", .string m.kind.word),
    ("exposing", m.exposing.toJson), ("imports", .array (m.imports.map Import.toJson)),
    ("declarations", .array (m.declarations.map Declaration.toJson))]
  simp only [List.map_cons, List.map_nil, form_array_map] at h
  have hspelled := Module.Spelled.intro m.exposing.spelled_toJson himports (.written _)
    hdeclarations (.written _) h
  rwa [map_fst_withForms, map_fst_withForms] at hspelled

/-! ## Texts -/

section

variable {P : Json.Number → Prop}

theorem numbers_namesToJson (names : List String) : (namesToJson names).Numbers P := by
  simp [namesToJson]

mutual

theorem TypeTerm.numbers_toJson (term : TypeTerm) : term.toJson.Numbers P := by
  match term with
  | .var name | .unit => simp [TypeTerm.toJson]
  | .named name arguments => simpa [TypeTerm.toJson] using numbers_typeTermsToJson arguments
  | .tuple items => simpa [TypeTerm.toJson] using numbers_typeTermsToJson items
  | .record fields => simpa [TypeTerm.toJson] using numbers_fieldsToJson fields
  | .extension base fields => simpa [TypeTerm.toJson] using numbers_fieldsToJson fields
  | .function argument result =>
    simp [TypeTerm.toJson, argument.numbers_toJson, result.numbers_toJson]

theorem numbers_typeTermsToJson (terms : List TypeTerm) :
    ∀ json ∈ typeTermsToJson terms, json.Numbers P := by
  match terms with
  | [] => simp [typeTermsToJson]
  | term :: terms =>
    exact List.forall_mem_cons.2 ⟨term.numbers_toJson, numbers_typeTermsToJson terms⟩

theorem numbers_fieldsToJson (fields : List (String × TypeTerm)) :
    ∀ json ∈ fieldsToJson fields, json.Numbers P := by
  match fields with
  | [] => simp [fieldsToJson]
  | (name, term) :: fields =>
    refine List.forall_mem_cons.2 ⟨?_, numbers_fieldsToJson fields⟩
    simp [term.numbers_toJson]

end

theorem Declaration.numbers_toJson (declaration : Declaration) : declaration.toJson.Numbers P := by
  cases declaration with
  | value | destructuring | operator => simp [Declaration.toJson]
  | «alias» name parameters written =>
    simp [Declaration.toJson, numbers_namesToJson, written.numbers_toJson]
  | custom name parameters constructors =>
    simp [Declaration.toJson, Constructor.toJson, numbers_namesToJson, TypeTerm.numbers_toJson]
  | port name written => simp [Declaration.toJson, written.numbers_toJson]

/-- There are no numbers in what is written for a module. -/
theorem Module.numbers_toJson (m : Module) : m.toJson.Numbers P := by
  have hexposing : m.exposing.toJson.Numbers P := by
    cases m.exposing <;> simp [Exposing.toJson, numbers_namesToJson]
  simp [Module.toJson, Import.toJson, hexposing, Declaration.numbers_toJson]

end

section

variable {m : Module} {form : Form} {text : String}

theorem Module.Spelled.parse?_eq (h : m.Spelled form) (htext : form.WrittenAs text)
    (hvalues : form.HasValuesAt wholeMembers) : Module.parse? text = some m := by
  rw [Module.parse?, htext.parse?_eq, Option.bind_some, h.ofForm?_eq hvalues]

theorem Module.Spelled.parse?_eq_none (h : m.Spelled form) (htext : form.WrittenAs text)
    (hvalues : ¬ form.HasValuesAt wholeMembers) : Module.parse? text = none := by
  rw [Module.parse?, htext.parse?_eq, Option.bind_some, h.ofForm?_eq_none hvalues]

end

/-- Everything in JSON whose numbers read back has a value. -/
theorem hasValuesAt_form {json : Json} (h : json.Numbers Json.Number.ReadsBack)
    (names : List String) : json.form.HasValuesAt names := by
  cases json with
  | object members =>
    rw [Json.form, Json.memberForms_eq]
    intro member hmember _
    obtain ⟨member, hmem, rfl⟩ := List.mem_map.1 hmember
    rw [Json.evaluate?_form member.2 (Json.numbers_object.1 h member hmem)]
    rfl
  | _ => exact trivial

theorem Module.parse?_compact {m : Module} (h : m.toJson.depth ≤ Json.nestingLimit) :
    Module.parse? m.toJson.compact = some m :=
  m.spelled_toJson.parse?_eq (Json.writtenAs_compact m.numbers_toJson h)
    (hasValuesAt_form m.numbers_toJson _)

/-- **A text that spells a module is read as that module** exactly if its exposing clause and its
declarations have values, whatever else stands in the module, and what is printed for a module is
such a text. -/
theorem Module.reads_every_spelling (m : Module) :
    (∀ form text, m.Spelled form → form.WrittenAs text →
      (form.HasValuesAt wholeMembers → Module.parse? text = some m) ∧
        (¬ form.HasValuesAt wholeMembers → Module.parse? text = none)) ∧
      (m.toJson.depth ≤ Json.nestingLimit → Module.parse? m.toJson.compact = some m) :=
  ⟨fun _ _ hform htext => ⟨hform.parse?_eq htext, hform.parse?_eq_none htext⟩,
    Module.parse?_compact⟩

/-- A module with an alias. -/
def counterModule : Module where
  name := "Counter"
  kind := .port
  exposing := .explicit ["Count"]
  imports := []
  declarations := [.alias "Count" [] (.named "Int" [])]

/-- The same module with its members the other way round, two more members, and nothing written for
the imports, parameters and arguments. -/
def counterJson : Json :=
  .object [("version", .number (.int 3)),
    ("declarations", .array [.object [("line", .number (.int 7)),
      ("annotation", .object [("name", .string "Int"), ("kind", .string "typed")]),
      ("name", .string "Count"), ("kind", .string "typeAlias")]]),
    ("exposing", .object [("names", .array [.string "Count"]), ("kind", .string "explicit")]),
    ("kind", .string "port"), ("name", .string "Counter")]

/-- Members in the opposite order give the same fields. -/
theorem gives_reverse (fields : List (String × Option Form)) (further : List (String × Form))
    (h : ∀ member ∈ further, member.1 ∉ fields.map Prod.fst) :
    Gives fields (.object ((Form.givenMembers fields ++ further).reverse.map fun member =>
      (some member.1, member.2))) :=
  .intro h (List.reverse_perm _)

theorem spelled_counterJson : counterModule.Spelled counterJson.form := by
  have hexposing : (Exposing.explicit ["Count"]).Spelled _ :=
    .explicit (gives_reverse _ [] (by simp))
  have hint : (TypeTerm.named "Int" []).Spelled _ :=
    @TypeTerm.Spelled.named "Int" [] none _ (by simp) .leftOut (gives_reverse _ [] (by simp))
  have hcount : (Declaration.alias "Count" [] (.named "Int" [])).Spelled _ :=
    .alias .leftOut hint (gives_reverse _ [("line", (Json.number (.int 7)).form)] (by simp))
  exact @Module.Spelled.intro "Counter" .port _ [] [(_, _)] _ _ none _ hexposing (by simp) .leftOut
    (List.forall_mem_singleton.2 hcount) (.written _)
    (gives_reverse _ [("version", (Json.number (.int 3)).form)] (by simp))

/-- Members the other way round, members without a meaning and lists that were left out change
nothing. -/
theorem Module.reads_every_spelling_counter :
    Module.parse? counterJson.compact = some counterModule ∧
      Module.parse? counterModule.toJson.compact = some counterModule := by
  have hnumbers : counterJson.Numbers Json.Number.ReadsBack := by
    have hint : ∀ n : Int, 0 ≤ n → n < 10 → (Json.Number.int n).ReadsBack := fun n hlow hhigh =>
      Json.Number.readsBack_int (by omega) (by omega)
    simp [counterJson, hint]
  have htext : counterJson.form.WrittenAs counterJson.compact :=
    Json.writtenAs_compact hnumbers (by decide)
  exact ⟨((counterModule.reads_every_spelling).1 _ _ spelled_counterJson htext).1
      (hasValuesAt_form hnumbers _),
    (counterModule.reads_every_spelling).2 (by decide)⟩

/-- A module that exposes everything and declares nothing. -/
def bareModule : Module where
  name := "M"
  kind := .normal
  exposing := .all
  imports := []
  declarations := []

/-- The number 1e400, which no number of 64 bits comes near. -/
def beyondRange : Decimal.Literal := ⟨false, ['1'], [], some 400⟩

/-- The exposing clause of the bare module, with a further member. -/
def bareExposing : Form :=
  .object [(some "kind", textForm "all"), (some "x", .number beyondRange)]

def bareForm : Form :=
  .object [(some "name", textForm "M"), (some "kind", textForm "normal"),
    (some "exposing", bareExposing)]

def bareText : String :=
  "\x7b\"name\":\"M\",\"kind\":\"normal\",\"exposing\":\x7b\"kind\":\"all\",\"x\":1e400\x7d\x7d"

theorem spelled_bareForm : bareModule.Spelled bareForm := by
  have hexposing : Exposing.all.Spelled bareExposing :=
    .all (@Gives.intro _ [("kind", textForm "all"), ("x", .number beyondRange)]
      [("x", .number beyondRange)] (by simp) (List.Perm.refl _))
  exact @Module.Spelled.intro "M" .normal .all [] [] _ _ none none hexposing (by simp) .leftOut
    (by simp) .leftOut (@Gives.intro _ [("name", textForm "M"), ("kind", textForm "normal"),
      ("exposing", bareExposing)] [] (by simp) (List.Perm.refl _))

theorem text_beyondRange : Json.Token.Text (.number beyondRange) ['1', 'e', '4', '0', '0'] := by
  have hwhole : Decimal.IsInteger ['1'] := .inr (by simp [Decimal.IsDigits])
  have hdigits : Decimal.IsDigits ['4', '0', '0'] := by simp [Decimal.IsDigits]
  exact .number (.mk hwhole (by simp) (.plain (.inl rfl) hdigits))

theorem texts_member (name : String) (form : Form) {text : List Char}
    (h : Json.Token.Texts form.tokens text) :
    Json.Token.Texts (.string (some name) :: .colon :: form.tokens)
      ((Json.quote name).toList ++ ([':'] ++ text)) :=
  (Json.text_quote name).cons (Json.Token.Text.colon.cons h)

theorem writtenAs_bareText : bareForm.WrittenAs bareText where
  texts := by
    have hexposing := Json.Token.Text.openBrace.cons <|
      (texts_member "kind" (textForm "all") (Json.text_quote "all").single).append <|
      Json.Token.Text.comma.cons <|
      (texts_member "x" (.number beyondRange) text_beyondRange.single).append <|
      Json.Token.Text.closeBrace.single
    have h := Json.Token.Text.openBrace.cons <|
      (texts_member "name" (textForm "M") (Json.text_quote "M").single).append <|
      Json.Token.Text.comma.cons <|
      (texts_member "kind" (textForm "normal") (Json.text_quote "normal").single).append <|
      Json.Token.Text.comma.cons <|
      (texts_member "exposing" bareExposing hexposing).append <|
      Json.Token.Text.closeBrace.single
    simp only [Json.quote, String.toList_ofList] at h
    exact h
  depth := by decide

/-- **A member that is passed over can keep a module from being read**: inside an exposing clause it
has to have a value. -/
theorem Module.parse?_beyondRange :
    bareModule.Spelled bareForm ∧ bareForm.WrittenAs bareText ∧ Module.parse? bareText = none := by
  have hnone : bareExposing.evaluate? = none := by rfl
  have hvalues : ¬ bareForm.HasValuesAt wholeMembers := by
    intro h
    have hsome := h (some "exposing", bareExposing) (by simp) ⟨"exposing", by decide, rfl⟩
    rw [hnone] at hsome
    cases hsome
  exact ⟨spelled_bareForm, writtenAs_bareText,
    spelled_bareForm.parse?_eq_none writtenAs_bareText hvalues⟩

end ElmWire.Source
