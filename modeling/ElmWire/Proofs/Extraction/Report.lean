import ElmWire.Proofs.Extraction.WellFormed
import Mathlib.Data.List.Count
import Mathlib.Data.List.Infix

/-!
# What is reported

A module that is no schema is rejected with what is wrong with it.  `Module.checks` lists what can
be wrong with a module as a whole, and **the first of them that applies is reported**
(`Module.toSchema_eq_error_iff`).

One of them is about the declarations, and there all faults count.  `report` says which these are,
in three passes: the declarations that cannot be read, those whose name is taken, and those that
refer to names that nothing declares.  It speaks about one declaration at a time, with those in
front of it, or with all of them.  The program goes through the names and keeps a list of those it
has seen, and makes the same report (`report_eq`).

**Every fault is reported, and once** (`EachOnce`).  There are as many reports as there are faults,
so no fault hides another, and none is reported again wherever the declaration is used.
-/

set_option autoImplicit false

/-! ## Names, one at a time -/

namespace ElmWire.Extraction

/-- What is wrong with a name that comes after others. -/
def nameError? (earlier : List String) (name : String) : Option DeclarationError :=
  if name ∈ earlier then some (.duplicate name)
  else if name ∈ reservedNames then some (.reserved name)
  else none

theorem nameErrors_cons (earlier : List String) (name : String) (rest : List String) :
    nameErrors earlier (name :: rest) =
      (nameError? earlier name).toList ++ nameErrors (name :: earlier) rest := by
  rw [nameErrors, nameError?]
  congr 1
  by_cases hearlier : name ∈ earlier
  · simp [hearlier]
  · by_cases hreserved : name ∈ reservedNames <;> simp [hearlier, hreserved]

/-- Going through names with a list of those that were seen is to leave out repetitions. -/
theorem undeclared_eq (declared seen names : List String) :
    undeclared declared seen names =
      (names.filter fun name => name ∉ declared ∧ name ∉ seen).eraseDups := by
  induction names generalizing seen with
  | nil => rfl
  | cons name rest ih =>
    rw [undeclared]
    by_cases hknown : name ∈ declared ∨ name ∈ seen
    · have hnot : ¬ (name ∉ declared ∧ name ∉ seen) := by tauto
      rw [if_pos (by simpa using hknown), ih, List.filter_cons_of_neg (by simpa using hnot)]
    · have hnew : name ∉ declared ∧ name ∉ seen := not_or.1 hknown
      rw [if_neg (by simpa using hknown), ih, List.filter_cons_of_pos (by simpa using hnew),
        List.eraseDups_cons, List.filter_filter]
      congr 2
      refine List.filter_congr fun other _ => Bool.eq_iff_iff.2 ?_
      simp [and_left_comm]

end ElmWire.Extraction

namespace ElmWire.Source

open Extraction

/-! ## The report -/

/-- The type terms of a declaration, in order. -/
def Declaration.typeTerms : Declaration → List TypeTerm
  | .alias _ _ written => [written]
  | .custom _ _ constructors => constructors.flatMap (·.arguments)
  | _ => []

/-- Why a declared type cannot be read: it has parameters, or the first of its type terms that
stands for no type. -/
def Declaration.typeError? (d : Declaration) (name : String) (parameters : List String) :
    Option DeclarationError :=
  if parameters ≠ [] then some (.parametric name)
  else (d.typeTerms.findSome? fun written => reason? written.toTy).map (·.inDeclaration name)

/-- Why a declaration cannot be read. -/
def Declaration.readingError? (d : Declaration) : Option DeclarationError :=
  match d with
  | .value name | .port name _ => some (.notAType name)
  | .destructuring => some (.notAType "<destructuring>")
  | .operator symbol _ => some (.notAType s!"({symbol})")
  | .alias name parameters _ | .custom name parameters _ => d.typeError? name parameters

/-- What is wrong with the name of a declaration that comes after others, read or not. -/
def Declaration.nameError? (before : List Declaration) (d : Declaration) :
    Option DeclarationError :=
  d.typeName?.bind (Extraction.nameError? (declaredNames before))

/-- The names that a definition refers to and that are not declared, in the order in which they
occur first. -/
def undeclaredReferences (declared : List String) (d : TypeDef) : List String :=
  (d.references.filter (· ∉ declared)).eraseDups

/-- What is wrong with declarations. -/
def report (source : List Declaration) : List DeclarationError :=
  source.filterMap Declaration.readingError? ++
    ((source.inits.zipWith Declaration.nameError? source).filterMap id ++
      (definitions source).flatMap fun d =>
        (undeclaredReferences (declaredNames source) d).map (.undefined d.name))

/-- What can be wrong with a module, and whether it is. -/
def Module.checks (m : Module) : List (Bool × ModuleError) :=
  [(m.kind = .port, .portModule),
    (m.kind = .effect, .effectModule),
    (m.exposing ≠ .all, .hidesNames),
    (m.imports ≠ [], .hasImports),
    (report m.declarations ≠ [], .badDeclarations (report m.declarations)),
    (outboundMessage ∉ declaredNames m.declarations, .noOutboundMessage),
    (inboundMessage ∉ declaredNames m.declarations, .noInboundMessage)]

/-! ## The program makes the report -/

/-- Constructor after constructor is argument after argument. -/
theorem findSome?_arguments (constructors : List Constructor) :
    (constructors.flatMap (·.arguments)).findSome? (fun written => reason? written.toTy) =
      reason? (constructors.mapM Constructor.toCtor) := by
  simp only [reason?_mapM, Constructor.toCtor, reason?_map]
  induction constructors with
  | nil => rfl
  | cons constructor rest ih =>
    rw [List.flatMap_cons, List.findSome?_append, ih, List.findSome?_cons]
    cases constructor.arguments.findSome? fun written => reason? written.toTy <;> rfl

theorem Declaration.readingError?_eq (d : Declaration) : d.readingError? = reason? d.toDef := by
  cases d with
  | value name | destructuring | port name written | operator symbol function => rfl
  | «alias» name parameters written =>
    rw [readingError?, typeError?, toDef]
    by_cases hparameters : parameters = []
    · cases hwritten : written.toTy <;> simp [hparameters, typeTerms, hwritten, reason?]
    · simp [hparameters, reason?]
  | custom name parameters constructors =>
    rw [readingError?, typeError?, toDef, typeTerms, findSome?_arguments]
    by_cases hparameters : parameters = []
    · cases constructors.mapM Constructor.toCtor <;> simp [hparameters, reason?]
    · simp [hparameters, reason?]

theorem definitionErrors_eq (source : List Declaration) :
    definitionErrors source = source.filterMap Declaration.readingError? := by
  rw [definitionErrors]
  congr 1
  funext d
  rw [Declaration.readingError?_eq]
  cases d.toDef <;> rfl

theorem referenceErrors_eq (declared : List String) (d : TypeDef) :
    referenceErrors declared d = (undeclaredReferences declared d).map (.undefined d.name) := by
  simp [referenceErrors, undeclared_eq, undeclaredReferences]

theorem declaredNames_append_cons (before : List Declaration) (d : Declaration)
    (rest : List Declaration) :
    declaredNames (before ++ d :: rest) =
      declaredNames before ++ (d.typeName?.toList ++ declaredNames rest) := by
  rw [declaredNames, List.filterMap_append, List.filterMap_cons, declaredNames, declaredNames]
  cases d.typeName? <;> rfl

/-- The names that were seen are those that are declared further in front. -/
theorem nameErrors_declaredNames (before source : List Declaration) {earlier : List String}
    (h : ∀ name, name ∈ earlier ↔ name ∈ declaredNames before) :
    nameErrors earlier (declaredNames source) =
      (source.inits.zipWith (fun front d => d.nameError? (before ++ front)) source).filterMap
        id := by
  induction source generalizing earlier before with
  | nil => rfl
  | cons d rest ih =>
    have hfront : (fun front (e : Declaration) => e.nameError? (before ++ d :: front)) =
        fun front e => e.nameError? (before ++ [d] ++ front) := by simp
    have hcons : declaredNames (d :: rest) = d.typeName?.toList ++ declaredNames rest :=
      declaredNames_append_cons [] d rest
    have hbefore : declaredNames (before ++ [d]) = declaredNames before ++ d.typeName?.toList := by
      rw [declaredNames_append_cons]
      exact congrArg _ (List.append_nil _)
    rw [List.inits_cons, List.zipWith_cons_cons, List.zipWith_map_left, hfront, List.append_nil,
      hcons, Declaration.nameError?, List.filterMap_cons]
    cases hname : d.typeName? with
    | none =>
      rw [hname, Option.toList_none, List.append_nil] at hbefore
      exact ih (before ++ [d]) fun name => by rw [hbefore, h]
    | some name =>
      rw [hname, Option.toList_some] at hbefore
      have hrest := @ih (before ++ [d]) (name :: earlier) fun other => by
        rw [hbefore, List.mem_append, List.mem_singleton, List.mem_cons, h, or_comm]
      have hsame : Extraction.nameError? earlier name =
          Extraction.nameError? (declaredNames before) name := by
        simp only [Extraction.nameError?, h]
      rw [Option.toList_some, List.singleton_append, nameErrors_cons, hrest, Option.bind_some,
        hsame]
      cases Extraction.nameError? (declaredNames before) name <;> rfl

theorem report_eq (source : List Declaration) :
    report source = definitionErrors source ++ check source (definitions source) := by
  have hnames : nameErrors [] (declaredNames source) =
      (source.inits.zipWith Declaration.nameError? source).filterMap id :=
    nameErrors_declaredNames [] source fun _ => Iff.rfl
  rw [check, hnames, report, definitionErrors_eq]
  simp only [← referenceErrors_eq]

/-- Where no declaration is at fault, what is declared is defined. -/
theorem contains_of_report_eq_nil {source : List Declaration} (h : report source = [])
    (name : String) :
    (Schema.mk (definitions source)).contains name = decide (name ∈ declaredNames source) := by
  rw [report_eq, List.append_eq_nil_iff, definitionErrors_eq_nil_iff] at h
  rw [Bool.eq_iff_iff, contains_iff_mem_declaredNames (forall₂_definitions h.1), decide_eq_true_iff]

/-- **The first check that applies is reported.** -/
theorem Module.toSchema_eq_error_iff {m : Module} {error : ModuleError} :
    m.toSchema = .error error ↔ (m.checks.find? (·.1)).map (·.2) = some error := by
  rw [toSchema, headerError?, declarationErrors, ← report_eq, checks]
  cases m.kind with
  | port => simp
  | effect => simp
  | normal =>
    by_cases hexposing : m.exposing = .all
    · by_cases himports : m.imports = []
      · by_cases hreport : report m.declarations = []
        · have hcontains := contains_of_report_eq_nil hreport
          by_cases hout : outboundMessage ∈ declaredNames m.declarations
          · by_cases hin : inboundMessage ∈ declaredNames m.declarations
            · simp [hexposing, himports, hreport, hcontains, hout, hin]
            · simp [hexposing, himports, hreport, hcontains, hout, hin]
          · simp [hexposing, himports, hreport, hcontains, hout]
        · simp [hexposing, himports, hreport]
      · simp [hexposing, himports]
    · simp [hexposing]

end ElmWire.Source

/-! ## Counting -/

namespace ElmWire.Extraction

open Source

/-- The passes over the declarations. -/
inductive Pass where
  | reading
  | naming
  | referring

/-- The pass that finds an error. -/
def DeclarationError.pass : DeclarationError → Pass
  | .notAType _ | .parametric _ | .applied _ _ | .tupleArity _ _ => .reading
  | .reserved _ | .duplicate _ => .naming
  | .undefined _ _ => .referring

theorem pass_inDeclaration (name : String) (error : TypeTermError) :
    (error.inDeclaration name).pass = .reading := by
  cases error <;> rfl

/-- No error is found in two passes. -/
theorem count_eq_zero_of_pass {errors : List DeclarationError} {pass : Pass}
    (h : ∀ error ∈ errors, error.pass = pass) {error : DeclarationError} (hne : error.pass ≠ pass) :
    errors.count error = 0 :=
  List.count_eq_zero.2 fun hmem => hne (h error hmem)

theorem pass_of_nameError? {earlier : List String} {name : String} {error : DeclarationError}
    (h : nameError? earlier name = some error) : error.pass = .naming := by
  rw [nameError?] at h
  split at h
  · cases h
    rfl
  · split at h
    · cases h
      rfl
    · cases h

theorem pass_of_mem_nameErrors {names : List String} :
    ∀ {earlier : List String}, ∀ error ∈ nameErrors earlier names, error.pass = .naming := by
  induction names with
  | nil => simp [nameErrors]
  | cons name rest ih =>
    intro earlier error hmem
    rw [nameErrors_cons, List.mem_append, Option.mem_toList] at hmem
    rcases hmem with hname | hrest
    · exact pass_of_nameError? hname
    · exact ih error hrest

/-- A name is a duplicate as often as it occurs again. -/
theorem count_duplicate (earlier names : List String) (name : String) :
    (nameErrors earlier names).count (.duplicate name) =
      if name ∈ earlier then names.count name else names.count name - 1 := by
  induction names generalizing earlier with
  | nil => simp [nameErrors]
  | cons other rest ih =>
    have hother : (nameError? earlier other).toList.count (.duplicate name) =
        if other = name ∧ name ∈ earlier then 1 else 0 := by
      rw [nameError?]
      grind
    rw [nameErrors_cons, List.count_append, ih, List.count_cons, hother]
    by_cases hname : other = name
    · subst hname
      by_cases hearlier : other ∈ earlier
      · simp [hearlier, Nat.add_comm]
      · simp [hearlier]
    · simp [hname, Ne.symm hname]

/-- A reserved name is reported where it occurs first. -/
theorem count_reserved (earlier names : List String) (name : String) :
    (nameErrors earlier names).count (.reserved name) =
      if name ∈ names ∧ name ∉ earlier ∧ name ∈ reservedNames then 1 else 0 := by
  induction names generalizing earlier with
  | nil => simp [nameErrors]
  | cons other rest ih =>
    have hother : (nameError? earlier other).toList.count (.reserved name) =
        if other = name ∧ name ∉ earlier ∧ name ∈ reservedNames then 1 else 0 := by
      rw [nameError?]
      grind
    rw [nameErrors_cons, List.count_append, ih, hother]
    by_cases hname : other = name
    · subst hname
      simp
    · simp [hname, Ne.symm hname]

/-- A name that is not declared is reported where it occurs first. -/
theorem count_undeclared (declared seen names : List String) (name : String) :
    (undeclared declared seen names).count name =
      if name ∈ names ∧ name ∉ declared ∧ name ∉ seen then 1 else 0 := by
  induction names generalizing seen with
  | nil => simp [undeclared]
  | cons other rest ih =>
    rw [undeclared]
    by_cases hknown : other ∈ declared ∨ other ∈ seen
    · rw [if_pos (by simpa using hknown), ih]
      grind
    · rw [if_neg (by simpa using hknown), List.count_cons, ih]
      grind

/-- A definition refers to a name or it does not. -/
theorem count_referenceErrors (declared : List String) (d : TypeDef) (name other : String) :
    (referenceErrors declared d).count (.undefined name other) =
      if d.name = name ∧ other ∈ d.references ∧ other ∉ declared then 1 else 0 := by
  rw [referenceErrors]
  by_cases hname : d.name = name
  · subst hname
    have hinj : Function.Injective (DeclarationError.undefined d.name) := fun _ _ h => by
      injection h
    rw [List.count_map_of_injective _ _ hinj, count_undeclared]
    simp
  · rw [if_neg fun h => hname h.1, List.count_eq_zero]
    simp [hname]

theorem count_undefined (declared : List String) (defs : List TypeDef) (name other : String) :
    (defs.flatMap (referenceErrors declared)).count (.undefined name other) =
      if other ∈ declared then 0
      else defs.countP fun d => d.name = name ∧ other ∈ d.references := by
  induction defs with
  | nil => simp
  | cons d rest ih =>
    rw [List.flatMap_cons, List.count_append, ih, List.countP_cons, count_referenceErrors]
    by_cases hdeclared : other ∈ declared
    · simp [hdeclared]
    · simp [hdeclared, Nat.add_comm]

end ElmWire.Extraction

namespace ElmWire.Source

open Extraction

theorem Declaration.pass_of_readingError? {d : Declaration} {error : DeclarationError}
    (h : d.readingError? = some error) : error.pass = .reading := by
  have htype : ∀ name parameters, d.typeError? name parameters = some error →
      error.pass = .reading := by
    intro name parameters htype
    rw [typeError?] at htype
    split at htype
    · cases htype
      rfl
    · obtain ⟨found, -, rfl⟩ := Option.map_eq_some_iff.1 htype
      exact pass_inDeclaration name found
  cases d with
  | value name | destructuring | port name written | operator symbol function =>
    cases h
    rfl
  | «alias» name parameters written => exact htype name parameters h
  | custom name parameters constructors => exact htype name parameters h

/-- There are as many errors as there are faults in the declarations, whatever the error. -/
structure EachOnce (source : List Declaration) (errors : List DeclarationError) : Prop where
  /-- One for each declaration that cannot be read. -/
  reading : ∀ error, error.pass = .reading →
    errors.count error = source.countP (·.readingError? = some error)
  /-- One for each declaration of a name but the first. -/
  duplicate : ∀ name, errors.count (.duplicate name) = (declaredNames source).count name - 1
  /-- One for each name that is reserved, however often it is declared. -/
  reserved : ∀ name, errors.count (.reserved name) =
    if name ∈ declaredNames source ∧ name ∈ reservedNames then 1 else 0
  /-- One for each definition that refers to a name, however often, if nothing declares the name. -/
  undefined : ∀ name other, errors.count (.undefined name other) =
    if other ∈ declaredNames source then 0
    else (definitions source).countP fun d => d.name = name ∧ other ∈ d.references

theorem eachOnce_report (source : List Declaration) : EachOnce source (report source) := by
  have hreading : ∀ error ∈ definitionErrors source, error.pass = .reading := by
    intro error hmem
    rw [definitionErrors_eq, List.mem_filterMap] at hmem
    obtain ⟨d, -, h⟩ := hmem
    exact Declaration.pass_of_readingError? h
  have hnaming : ∀ error ∈ nameErrors [] (declaredNames source), error.pass = .naming :=
    pass_of_mem_nameErrors
  have hreferring : ∀ error ∈ (definitions source).flatMap
      (referenceErrors (declaredNames source)), error.pass = .referring := by
    intro error hmem
    obtain ⟨d, -, h⟩ := List.mem_flatMap.1 hmem
    obtain ⟨name, -, rfl⟩ := List.mem_map.1 h
    rfl
  have hcount : ∀ error, (report source).count error =
      (definitionErrors source).count error + ((nameErrors [] (declaredNames source)).count error +
        ((definitions source).flatMap (referenceErrors (declaredNames source))).count error) := by
    intro error
    rw [report_eq, check, List.count_append, List.count_append]
  constructor
  case reading =>
    intro error hpass
    rw [hcount, count_eq_zero_of_pass hnaming (by simp [hpass]),
      count_eq_zero_of_pass hreferring (by simp [hpass]), definitionErrors_eq, List.count_filterMap]
    simp [beq_eq_decide]
  case duplicate =>
    intro name
    rw [hcount, count_eq_zero_of_pass hreading (by simp [DeclarationError.pass]),
      count_eq_zero_of_pass hreferring (by simp [DeclarationError.pass]), count_duplicate]
    simp
  case reserved =>
    intro name
    rw [hcount, count_eq_zero_of_pass hreading (by simp [DeclarationError.pass]),
      count_eq_zero_of_pass hreferring (by simp [DeclarationError.pass]), count_reserved]
    simp
  case undefined =>
    intro name other
    rw [hcount, count_eq_zero_of_pass hreading (by simp [DeclarationError.pass]),
      count_eq_zero_of_pass hnaming (by simp [DeclarationError.pass]), count_undefined]
    simp

/-- **The first check of a module that applies is reported, and of its declarations every fault,
once.**  A name that is declared counts as such even if its declaration cannot be read. -/
theorem Module.reports_every_fault_once (m : Module) :
    (∀ error, m.toSchema = .error error ↔ (m.checks.find? (·.1)).map (·.2) = some error) ∧
    EachOnce m.declarations (report m.declarations) ∧
    ∀ name ∈ declaredNames m.declarations, ∀ declaration,
      .undefined declaration name ∉ report m.declarations := by
  refine ⟨fun error => toSchema_eq_error_iff, eachOnce_report m.declarations, ?_⟩
  intro name hname declaration
  rw [← List.count_eq_zero, (eachOnce_report m.declarations).undefined, if_pos hname]

/-- A module in which much is wrong: a function, a reserved name, a type that is declared twice and
cannot be read either time, and references to it and to names that nothing declares. -/
def faultyModule : Module where
  name := "Schema"
  kind := .normal
  exposing := .all
  imports := []
  declarations :=
    [.value "main",
      .alias "Maybe" [] .unit,
      .alias "Box" ["a"] (.var "a"),
      .custom "Tree" [] [⟨"Node", [.named "Box" [], .named "Leaf" [], .named "Root" [],
        .named "Leaf" []]⟩],
      .alias "Box" [] (.tuple [.unit]),
      .alias "Tree" [] (.named "Leaf" [])]

/-- No fault hides another. -/
theorem reports_every_fault_once_faulty :
    faultyModule.toSchema = .error (.badDeclarations
      [.notAType "main", .parametric "Box", .tupleArity "Box" 1,
        .reserved "Maybe", .duplicate "Box", .duplicate "Tree",
        .undefined "Tree" "Leaf", .undefined "Tree" "Root", .undefined "Tree" "Leaf"]) ∧
    "Box" ∈ declaredNames faultyModule.declarations ∧
    .undefined "Tree" "Box" ∉ report faultyModule.declarations := by
  have hbox : "Box" ∈ declaredNames faultyModule.declarations := by decide
  obtain ⟨hfirst, -, hdeclared⟩ := faultyModule.reports_every_fault_once
  exact ⟨(hfirst _).2 (by decide), hbox, hdeclared "Box" hbox "Tree"⟩

end ElmWire.Source
