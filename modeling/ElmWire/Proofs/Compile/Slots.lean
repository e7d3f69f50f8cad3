import ElmWire.Compile.Output
import ElmWire.Proofs.Template

/-!
# Every slot has a value

The texts of the two templates are put together from short pieces, none of which has a slot without
a value.  Since slots do not reach from one piece into the next, the same holds of the templates.

`Output.exists_ofSchema_iff` — **a schema compiles whenever the options pass their check**: no slot
is ever left without a value.
-/

set_option autoImplicit false
namespace ElmWire.Compile

open Template

variable {names : List String} {text before after : String}

/-! ## Pieces of a template -/

/-- Every slot of the text has one of the names. -/
def Fillable (names : List String) (text : String) : Prop :=
  ∀ slot ∈ slots text.toList, String.ofList slot ∈ names

/-- For a text that is written out, this can be checked. -/
theorem fillable_ofList {text : List Char}
    (h : ((slots text).all fun slot => names.contains (String.ofList slot)) = true) :
    Fillable names (String.ofList text) := by
  intro slot hslot
  rw [String.toList_ofList] at hslot
  simpa using List.all_eq_true.1 h slot hslot

theorem Fillable.join (hbefore : Fillable names before) (c : Char) (hafter : Fillable names after)
    (hc : isApart c = true) (htext : text.toList = before.toList ++ c :: after.toList) :
    Fillable names text := by
  rw [Fillable, htext, slots_append_cons hc, List.forall_mem_append]
  exact ⟨hbefore, hafter⟩

theorem Fillable.spaced (hbefore : Fillable names before) (hafter : Fillable names after) :
    Fillable names (before ++ " " ++ after) :=
  hbefore.join ' ' hafter (by decide) (by simp)

theorem fillable_intercalate {words : List String} (h : ∀ word ∈ words, Fillable names word) :
    Fillable names (String.intercalate " " words) := by
  induction words with
  | nil => exact fillable_ofList rfl
  | cons word rest ih =>
    obtain ⟨hword, hrest⟩ := List.forall_mem_cons.1 h
    cases rest with
    | nil => rwa [String.intercalate_singleton]
    | cons next others =>
      rw [String.intercalate_cons_cons]
      exact hword.spaced (ih hrest)

/-- An annotation has the slots of the name and of the type. -/
theorem fillable_signature (hbefore : Fillable names before) (hafter : Fillable names after) :
    Fillable names (before ++ " : " ++ after) := by
  have hcolon : Fillable names ":" := fillable_ofList rfl
  have hrest : Fillable names (": " ++ after) := hcolon.join ' ' hafter (by decide) (by simp)
  exact hbefore.join ' ' hrest (by decide) (by simp)

theorem fillable_ofLines {lines : List String} (h : ∀ line ∈ lines, Fillable names line) :
    Fillable names (ofLines lines) := by
  induction lines with
  | nil => exact fillable_ofList rfl
  | cons line rest ih =>
    obtain ⟨hline, hrest⟩ := List.forall_mem_cons.1 h
    exact hline.join '\n' (ih hrest) (by decide) (by simp [ofLines])

/-- The pieces that a definition is written with. -/
def Definition.pieces (d : Definition) : List String := d.name :: d.type :: (d.params ++ d.body)

theorem Definition.fillable_lines {d : Definition} (h : ∀ piece ∈ d.pieces, Fillable names piece) :
    ∀ line ∈ d.lines, Fillable names line := by
  simp only [pieces, List.forall_mem_cons, List.forall_mem_append] at h
  obtain ⟨hname, htype, hparams, hbody⟩ := h
  have hwords := fillable_intercalate (List.forall_mem_cons.2 ⟨hname, hparams⟩)
  have hequals : Fillable names "=" := fillable_ofList rfl
  have hhead : Fillable names (String.intercalate " " (d.name :: d.params) ++ " =") :=
    hwords.join ' ' hequals (by decide) (by simp)
  rw [lines, List.forall_mem_cons, List.forall_mem_cons]
  exact ⟨fillable_signature hname htype, hhead, hbody⟩

theorem forall_mem_intercalate {P : String → Prop} {separator : List String}
    {blocks : List (List String)} (hseparator : ∀ line ∈ separator, P line)
    (h : ∀ block ∈ blocks, ∀ line ∈ block, P line) :
    ∀ line ∈ separator.intercalate blocks, P line := by
  induction blocks with
  | nil => simp
  | cons block rest ih =>
    obtain ⟨hblock, hrest⟩ := List.forall_mem_cons.1 h
    cases rest with
    | nil => rwa [List.intercalate_singleton]
    | cons next others =>
      rw [List.intercalate_cons_cons, List.forall_mem_append, List.forall_mem_append]
      exact ⟨⟨hblock, hseparator⟩, ih hrest⟩

/-! ## The two templates -/

/-- The names of the slots of the Elm module. -/
def elmSlotNames : List String :=
  ["module_name", "type_declarations", "codecs", "variant_tag", "arg_prefix", "unit_tag", "just",
    "nothing", "ok", "err"]

/-- The names of the slots of the TypeScript declarations. -/
def typeScriptSlotNames : List String := ["main_module", "prelude", "type_declarations"]

/-- The pieces of the Elm module, as far as they are written out. -/
theorem fillable_elmPieces :
    (∀ line ∈ elmHeader, Fillable elmSlotNames line) ∧
      (∀ port ∈ ports, Fillable elmSlotNames port.1 ∧ Fillable elmSlotNames port.2) ∧
      (∀ d ∈ messaging, ∀ piece ∈ d.pieces, Fillable elmSlotNames piece) ∧
      ∀ d ∈ toolkit, ∀ piece ∈ d.pieces, Fillable elmSlotNames piece := by
  simp only [elmHeader, ports, messaging, toolkit, Definition.pieces, List.forall_mem_cons,
    List.cons_append, List.nil_append, List.not_mem_nil, false_imp_iff, implies_true, and_true]
  repeat' apply And.intro
  -- Long lines are written in two halves.
  all_goals try with_reducible apply Fillable.spaced
  all_goals exact fillable_ofList (by decide +kernel)

theorem fillable_elmSkeleton : Fillable elmSlotNames elmSkeleton := by
  obtain ⟨hheader, hports, hmessaging, htoolkit⟩ := fillable_elmPieces
  have hempty : Fillable elmSlotNames "" := fillable_ofList rfl
  have hport : Fillable elmSlotNames "port" := fillable_ofList rfl
  refine fillable_ofLines (forall_mem_intercalate (by simp [hempty]) ?_)
  simp only [elmBlocks, List.forall_mem_append, List.forall_mem_map, List.forall_mem_cons,
    List.not_mem_nil, false_imp_iff, implies_true, and_true]
  refine ⟨⟨⟨⟨hheader, fun port hmem => ?_⟩, fun d hd => ?_⟩, ?_⟩, fun d hd => ?_⟩
  · obtain ⟨hname, htype⟩ := hports port hmem
    exact fillable_signature (hport.join ' ' hname (by decide) (by simp)) htype
  · exact Definition.fillable_lines (hmessaging d hd)
  · -- The headings, and the slots of what is generated, stand in blocks of their own.
    repeat' apply And.intro
    all_goals exact fillable_ofList (by decide +kernel)
  · exact Definition.fillable_lines (htoolkit d hd)

theorem fillable_typeScriptSkeleton : Fillable typeScriptSlotNames typeScriptSkeleton := by
  refine fillable_ofLines ?_
  simp only [List.forall_mem_cons, List.not_mem_nil, false_imp_iff, implies_true, and_true]
  repeat' apply And.intro
  all_goals exact fillable_ofList (by decide +kernel)

/-! ## Compiling -/

/-- **A schema compiles whenever the options pass their check.** -/
theorem Output.exists_ofSchema_iff {options : Options} (schema : Schema) :
    (∃ output, Output.ofSchema options schema = .ok output) ↔ options.check = .ok () := by
  obtain ⟨elm, helm⟩ : ∃ elm, fill elmSkeleton (elmSlots options schema) = .ok elm :=
    exists_fill fillable_elmSkeleton
  obtain ⟨typeScript, htypeScript⟩ :
      ∃ text, fill typeScriptSkeleton (typeScriptSlots options schema) = .ok text :=
    exists_fill fillable_typeScriptSkeleton
  rw [ofSchema, helm, htypeScript]
  cases options.check with
  | error e => exact ⟨nofun, nofun⟩
  | ok checked => exact ⟨fun _ => rfl, fun _ => ⟨⟨elm, typeScript⟩, rfl⟩⟩

/-- A text compiles if it spells a module that has a schema. -/
theorem Output.exists_ofText {options : Options} {m : Source.Module} {schema : Schema}
    (hparse : Source.Module.parse? text = some m) (hschema : m.toSchema = .ok schema)
    (hcheck : options.check = .ok ()) : ∃ output, Output.ofText options text = .ok output := by
  obtain ⟨output, houtput⟩ := (Output.exists_ofSchema_iff schema).2 hcheck
  refine ⟨output, ?_⟩
  simp only [ofText, hparse, ofModule, hcheck, hschema, Except.mapError, bind, Except.bind, houtput]

end ElmWire.Compile
