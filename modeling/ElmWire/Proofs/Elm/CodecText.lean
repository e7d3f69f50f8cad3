import ElmWire.Proofs.Decimal.Grammar
import ElmWire.Proofs.Elm.Scope
import ElmWire.Proofs.Elm.Spelling
import ElmWire.Proofs.Json.Number

/-!
# The text of generated codecs

Generators make legible expressions only (`legible_encoderBody`, `legible_decoderBody`), provided
that the names in the definition are identifiers (`TypeDef.isSpellable`).  Which names those are
does not matter, and neither do the variables that are in use.

So **the text of a generated codec determines its syntax tree** (`squeeze_render_codecs_iff`).
-/

set_option autoImplicit false
namespace ElmWire

/-! ## Definitions with names that can be read -/

mutual

/-- All names in the type are identifiers. -/
def Ty.isSpellable : Ty → Bool
  | .unit | .bool | .int | .float | .char | .string => true
  | .named name => Elm.isIdentifier name
  | .list item | .maybe item => item.isSpellable
  | .pair first second | .result first second => first.isSpellable && second.isSpellable
  | .triple first second third => first.isSpellable && second.isSpellable && third.isSpellable
  | .record fields => areSpellable fields

/-- All names in the fields of a record type are identifiers. -/
def areSpellable : List (String × Ty) → Bool
  | [] => true
  | (name, type) :: rest => Elm.isIdentifier name && type.isSpellable && areSpellable rest

end

/-- All names in the definition are identifiers. -/
def TypeDef.isSpellable : TypeDef → Bool
  | .alias name type => Elm.isIdentifier name && type.isSpellable
  | .custom name ctors => Elm.isIdentifier name &&
      ctors.all fun ctor => Elm.isIdentifier ctor.name && ctor.arguments.all Ty.isSpellable

theorem isIdentifier_of_areSpellable {fields : List (String × Ty)}
    (h : areSpellable fields = true) : ∀ field ∈ fields, Elm.isIdentifier field.1 = true := by
  induction fields with
  | nil => exact List.forall_mem_nil _
  | cons field rest ih =>
    rw [areSpellable, Bool.and_eq_true_iff, Bool.and_eq_true_iff] at h
    exact List.forall_mem_cons.2 ⟨h.1.1, ih h.2⟩

namespace Elm

open Layout ExprGrammar Text

/-! ## Names -/

theorem isIdentifier_append {stem rest : String} (h : isIdentifier stem = true)
    (hrest : ∀ c ∈ rest.toList, isNameChar c = true) : isIdentifier (stem ++ rest) = true := by
  rw [isIdentifier, isNameWith] at h ⊢
  rw [String.toList_append]
  cases hchars : stem.toList with
  | nil =>
    rw [hchars] at h
    cases h
  | cons c cs =>
    rw [hchars] at h
    obtain ⟨hc, hcs⟩ := Bool.and_eq_true_iff.1 h
    rw [List.all_eq_true] at hcs
    refine Bool.and_eq_true_iff.2 ⟨hc, ?_⟩
    rw [List.all_eq_true]
    exact List.forall_mem_append.2 ⟨hcs, hrest⟩

theorem isDigit_eq_false_of_isAlpha {c : Char} (h : c.isAlpha = true) : c.isDigit = false := by
  have hlarge : 65 ≤ c.toNat := by
    rcases Bool.or_eq_true_iff.1 h with h | h
    · exact UInt32.le_iff_toNat_le.1 (of_decide_eq_true h).1
    · have hle : 97 ≤ c.toNat :=
        UInt32.le_iff_toNat_le.1 (of_decide_eq_true (Bool.and_eq_true_iff.1 h).1)
      omega
  rw [Bool.eq_false_iff]
  intro hdigit
  have hle : c.toNat ≤ 57 := (Char.isDigit_iff_toNat.1 hdigit).2
  omega

/-- A name does not start with a digit. -/
theorem head?_of_isIdentifier {name : String} (h : isIdentifier name = true) (cs : List Char) :
    (name.toList ++ cs).head?.any Char.isDigit = false := by
  rw [isIdentifier, isNameWith] at h
  cases hchars : name.toList with
  | nil =>
    rw [hchars] at h
    cases h
  | cons c rest =>
    rw [hchars] at h
    rcases Bool.or_eq_true_iff.1 (Bool.and_eq_true_iff.1 h).1 with hc | hlarge
    · rcases Bool.or_eq_true_iff.1 hc with hc | hc
      · exact isDigit_eq_false_of_isAlpha hc
      · obtain rfl : c = '_' := by simpa using hc
        rfl
    · rw [decide_eq_true_eq] at hlarge
      show c.isDigit = false
      rw [Bool.eq_false_iff]
      intro hdigit
      have hle : c.toNat ≤ 57 := (Char.isDigit_iff_toNat.1 hdigit).2
      omega

theorem pieces_intercalate {names : List String} (hne : names ≠ [])
    (h : ∀ name ∈ names, isIdentifier name = true) :
    pieces '.' (".".intercalate names) = names := by
  have htext : (".".intercalate names).toList = ['.'].intercalate (names.map String.toList) := by
    rw [String.toList_intercalate]
    rfl
  have hpoints : ∀ cs ∈ names.map String.toList, '.' ∉ cs := by
    refine List.forall_mem_map.2 fun name hname hpoint => ?_
    exact absurd ((chars_of_isIdentifier (h name hname)).2 '.' hpoint) (by decide)
  rw [pieces, htext, split_intercalate (by simpa using hne) hpoints, List.map_map]
  simp [Function.comp_def]

/-- A word with points in it does not start with the name of the library, unless its first piece is
that name. -/
theorem exists_of_isLibraryWord {w : String} (h : isLibraryWord w = true) :
    ∃ first rest, pieces '.' w = "Json" :: first :: rest := by
  obtain ⟨cs, hcs⟩ := List.isPrefixOf_iff_prefix.1 h
  obtain ⟨first, rest, hsplit⟩ := List.exists_cons_of_ne_nil (split_ne_nil '.' cs)
  have hjson : split '.' ("Json".toList ++ '.' :: cs) = ("Json".toList ++ []) :: split '.' cs :=
    split_append (by decide) (if_pos rfl)
  have htext : w.toList = "Json".toList ++ '.' :: cs := hcs.symm
  rw [pieces, htext, hjson, hsplit]
  exact ⟨_, _, rfl⟩

/-- What a name with the fields that are looked up is read as. -/
theorem ofWord_path {name : String} {fields : List String} (hname : isIdentifier name = true)
    (hlibrary : fields ≠ [] → name ≠ "Json")
    (hfields : ∀ field ∈ fields, isIdentifier field = true) :
    Expr.ofWord (".".intercalate (name :: fields)) = fields.foldl .access (.var name) := by
  have hpieces := pieces_intercalate (List.cons_ne_nil name fields)
    (List.forall_mem_cons.2 ⟨hname, hfields⟩)
  have hhead : (".".intercalate (name :: fields)).toList.head?.any Char.isDigit = false := by
    obtain ⟨cs, hcs⟩ : ∃ cs, (".".intercalate (name :: fields)).toList = name.toList ++ cs := by
      cases fields with
      | nil => exact ⟨[], by simp⟩
      | cons field rest => exact ⟨_, by rw [String.intercalate_cons_cons, String.append_assoc,
          String.toList_append]⟩
    rw [hcs]
    exact head?_of_isIdentifier hname cs
  have hword : isLibraryWord (".".intercalate (name :: fields)) = false := by
    cases h : isLibraryWord (".".intercalate (name :: fields)) with
    | false => rfl
    | true =>
      obtain ⟨first, rest, hjson⟩ := exists_of_isLibraryWord h
      rw [hpieces, List.cons.injEq] at hjson
      exact absurd hjson.1 (hlibrary (hjson.2 ▸ List.cons_ne_nil first rest))
  rw [Expr.ofWord, hhead, hword, hpieces]
  rfl

theorem ofWord_of_isIdentifier {name : String} (h : isIdentifier name = true) :
    Expr.ofWord name = .var name := by
  have hword : Expr.ofWord (".".intercalate [name]) = .var name :=
    ofWord_path h (fun hne => absurd rfl hne) (List.forall_mem_nil _)
  rwa [String.intercalate_singleton] at hword

/-! ## Legible parts -/

theorem Legible.var {name : String} (h : isIdentifier name = true) : Legible (.var name) :=
  .word (isToken_of_isIdentifier h) (ofWord_of_isIdentifier h)
    fun prec => by rw [Expr.toDoc, Doc.oneLine]

theorem oneLine_path {e : Expr} {w : String} (h : ∀ prec, (e.toDoc prec).oneLine = w)
    (fields : List String) (prec : Prec) :
    ((fields.foldl .access e).toDoc prec).oneLine = ".".intercalate (w :: fields) := by
  induction fields generalizing e w with
  | nil => rw [List.foldl_nil, h, String.intercalate_singleton]
  | cons field rest ih =>
    have haccess : ∀ prec, ((Expr.access e field).toDoc prec).oneLine = w ++ ("." ++ field) := by
      intro prec
      rw [Expr.toDoc, Doc.oneLine_append, h, Doc.oneLine]
    rw [List.foldl_cons, ih haccess, String.intercalate_cons_append,
      String.intercalate_cons_append, String.intercalate_cons_cons, String.append_assoc]

theorem Legible.int (n : Nat) : Legible (.int n) := by
  have hdigits := Json.isDigit_toString n
  have htext := Decimal.toList_toString n
  obtain ⟨c, rest, hcons⟩ : ∃ c rest, (toString n).toList = c :: rest :=
    List.exists_cons_of_ne_nil (htext ▸ Nat.toDigits_ne_nil)
  have hhead : (toString n).toList.head?.any Char.isDigit = true := by
    rw [hcons]
    exact hdigits c (hcons ▸ List.mem_cons_self)
  refine .word (w := toString n) ⟨?_, fun c hc => ?_⟩ ?_ fun prec => ?_
  · rintro hempty
    rw [hempty] at hcons
    cases hcons
  · exact isWordChar_of_isNameChar (by simp [isNameChar, Char.isAlphanum, hdigits c hc])
  · rw [Expr.ofWord, if_pos hhead, htext, Decimal.ofDigits_toDigits]
  · rw [Expr.toDoc, Doc.oneLine]
    rfl

/-- A variable, as generators make them. -/
structure IsVariable (name : String) : Prop where
  identifier : isIdentifier name = true
  ne_library : name ≠ "Json"
  ne_wildcard : name ≠ "_"

theorem isVariable_append {stem : String} (h : stem ∈ ["value", "arg", "field"]) (n : Nat) :
    IsVariable (stem ++ toString n) := by
  have hstem : isIdentifier stem = true ∧ stem.toList.head? ∉ [some 'J', some '_'] := by
    revert stem
    decide
  have hne : ∀ w : String, w.toList.head? ∈ [some 'J', some '_'] → stem ++ toString n ≠ w := by
    rintro w hw rfl
    obtain ⟨c, rest, hcons⟩ := List.exists_cons_of_ne_nil
      (mt String.toList_eq_nil_iff.1 (chars_of_isIdentifier hstem.1).1)
    rw [String.toList_append, hcons] at hw
    rw [hcons] at hstem
    exact hstem.2 hw
  refine ⟨isIdentifier_append hstem.1 fun c hc => ?_, hne "Json" (by decide), hne "_" (by decide)⟩
  simp [isNameChar, Char.isAlphanum, Json.isDigit_toString n c hc]

theorem IsVariable.legible {name : String} (h : IsVariable name) : Legible (.var name) :=
  .var h.identifier

/-- A variable, or a field of what such an expression denotes. -/
inductive IsPath : Expr → Prop
  | var {name : String} (h : IsVariable name) : IsPath (.var name)
  | access {subject : Expr} {field : String} (h : IsPath subject)
      (hfield : isIdentifier field = true) : IsPath (.access subject field)

theorem IsPath.exists_foldl {e : Expr} (h : IsPath e) :
    ∃ (name : String) (fields : List String), IsVariable name ∧
      (∀ field ∈ fields, isIdentifier field = true) ∧ e = fields.foldl .access (.var name) := by
  induction h with
  | @var name h => exact ⟨name, [], h, List.forall_mem_nil _, rfl⟩
  | @access _ field h hfield ih =>
    obtain ⟨name, fields, hname, hfields, rfl⟩ := ih
    refine ⟨name, fields ++ [field], hname, ?_, by rw [List.foldl_append]; rfl⟩
    exact List.forall_mem_append.2 ⟨hfields, List.forall_mem_singleton.2 hfield⟩

theorem IsPath.legible {e : Expr} (h : IsPath e) : Legible e := by
  obtain ⟨name, fields, hname, hfields, rfl⟩ := h.exists_foldl
  have hnames : ∀ piece ∈ name :: fields, isIdentifier piece = true :=
    List.forall_mem_cons.2 ⟨hname.identifier, hfields⟩
  have hqualified : isQualified (".".intercalate (name :: fields)) = true := by
    rw [isQualified, pieces_intercalate (List.cons_ne_nil name fields) hnames, List.all_eq_true]
    exact hnames
  obtain ⟨hne, hchars⟩ := chars_of_isQualified hqualified
  refine .word ⟨hne, hchars⟩ (ofWord_path hname.identifier (fun _ => hname.ne_library) hfields) ?_
  exact oneLine_path (fun prec => by rw [Expr.toDoc, Doc.oneLine]) fields

/-- A function of variables. -/
theorem Legible.function {params : List String} {body : Expr} (h : ∀ w ∈ params, IsVariable w)
    (hbody : Legible body) : Legible (.lambda (params.map .var) body) := by
  have hparams : params.map Pattern.var = params.map .ofWord :=
    List.map_congr_left fun w hw => (if_neg (h w hw).ne_wildcard).symm
  rw [hparams]
  exact .lambda (fun w hw => isToken_of_isIdentifier (h w hw).identifier) hbody

/-! ## Calls -/

/-- The functions of the library and of the toolkit. -/
theorem isFunction_of_mem {w : String} (h : w ∈ libraryFunctions ++ Toolkit.all) :
    IsFunction w := by
  have hall : ∀ w ∈ libraryFunctions ++ Toolkit.all,
      (w.toList.all isWordChar = true ∧ w.toList.head?.any Char.isDigit = false ∧
        isLibraryWord w = true ∨ isIdentifier w = true) ∧ w ≠ "" ∧ w ≠ "case" := by
    decide
  obtain ⟨hword, hne, hcase⟩ := hall w h
  rcases hword with ⟨hchars, hhead, hlibrary⟩ | hname
  · refine ⟨isToken_of_all hne hchars, ?_, hcase⟩
    rw [Expr.ofWord, hhead, hlibrary]
    rfl
  · exact ⟨isToken_of_isIdentifier hname, ofWord_of_isIdentifier hname, hcase⟩

theorem isFunction_encoderName {name : String} (h : isIdentifier name = true) :
    IsFunction (encoderName name) := by
  have hname : isIdentifier (encoderName name) = true :=
    isIdentifier_append (by decide) (chars_of_isIdentifier h).2
  refine ⟨isToken_of_isIdentifier hname, ofWord_of_isIdentifier hname, fun hcase => ?_⟩
  have hhead := congrArg (fun s => s.toList.head?) hcase
  simp [encoderName] at hhead

theorem IsFunction.legible {w : String} (h : IsFunction w) : Legible (.var w) :=
  .word h.toIsToken h.reads fun prec => by rw [Expr.toDoc, Doc.oneLine]

theorem Legible.call {w : String} {es : List Expr} (hw : IsFunction w) (h : ∀ e ∈ es, Legible e) :
    Legible (.call w es) := by
  cases es with
  | nil => exact hw.legible
  | cons e rest => exact .app hw (List.cons_ne_nil e rest) h

/-- A function that has got some arguments, and may get more. -/
inductive Callable : Expr → Prop
  | call {w : String} {es : List Expr} (hw : IsFunction w) (h : ∀ e ∈ es, Legible e) :
      Callable (.call w es)

theorem IsFunction.callable {w : String} (h : IsFunction w) : Callable (.var w) := by
  show Callable (.call w [])
  exact .call h (List.forall_mem_nil _)

theorem Callable.legible {e : Expr} (h : Callable e) : Legible e := by
  cases h with
  | call hw h => exact .call hw h

theorem apply_call (w : String) (es es' : List Expr) :
    (Expr.call w es).apply es' = .call w (es ++ es') := by
  cases es with
  | nil => rfl
  | cons e rest =>
    cases es' with
    | nil => rw [List.append_nil]; rfl
    | cons e' rest' => rfl

theorem Callable.apply {e : Expr} (h : Callable e) {es : List Expr} (hes : ∀ e ∈ es, Legible e) :
    Legible (e.apply es) := by
  cases h with
  | call hw h =>
    rw [apply_call]
    exact .call hw (List.forall_mem_append.2 ⟨h, hes⟩)

theorem Legible.through {head : Expr} {stages : List Expr} (happ : head.isApp = true)
    (h : Legible head) (hstages : ∀ e ∈ stages, Legible e ∧ e.isApp = true) :
    Legible (head.through stages) := by
  fun_cases Expr.through head stages with
  | case1 => exact h
  | case2 stages hne =>
    exact .pipe happ (fun e he => (hstages e he).2) hne h fun e he => (hstages e he).1

/-! ## Encoders -/

theorem always_freshValue : Always freshValue IsVariable :=
  fun names => isVariable_append (by decide) names.values

theorem always_freshArgument : Always freshArgument IsVariable :=
  fun names => isVariable_append (by decide) names.arguments

theorem always_freshField : Always freshField IsVariable :=
  fun names => isVariable_append (by decide) names.fields

/-- Encoders for the type are legible: functions as well as expressions for the JSON of some
subject. -/
structure EncodesLegibly (type : Ty) : Prop where
  encoder : Always (encoder type) Legible
  encodeOf : ∀ {subject : Expr}, IsPath subject → Always (encodeOf subject type) Legible

/-- Unless the subject is a record, its JSON is the encoder applied to it. -/
theorem encodesLegibly_of_callable {type : Ty} (hrecord : ∀ fields, type ≠ .record fields)
    (h : Always (encoder type) Callable) : EncodesLegibly type := by
  refine ⟨fun names => (h names).legible, fun {subject} hsubject => ?_⟩
  have heq : encodeOf subject type = encoder type >>= fun e => pure (e.apply [subject]) := by
    cases type with
    | record fields => exact absurd rfl (hrecord fields)
    | _ => rw [Elm.encodeOf]; simp
  rw [heq]
  exact h.bind fun e he => .pure (he.apply (List.forall_mem_singleton.2 hsubject.legible))

theorem legible_encodeRecord {pairs : List Expr} (h : ∀ e ∈ pairs, Legible e) :
    Legible (.call Toolkit.encodeRecord [.list pairs]) :=
  .call (isFunction_of_mem (by simp [Toolkit.all])) (List.forall_mem_singleton.2 (.list h))

mutual

theorem encodesLegibly : ∀ type : Ty, type.isSpellable = true → EncodesLegibly type
  | .unit, _ | .bool, _ | .int, _ | .float, _ | .char, _ | .string, _ =>
    encodesLegibly_of_callable (by simp) (by
      rw [encoder]
      exact .pure (isFunction_of_mem (by simp [libraryFunctions, Toolkit.all])).callable)
  | .named name, h => encodesLegibly_of_callable (by simp) (by
      rw [Ty.isSpellable] at h
      rw [encoder]
      exact .pure (isFunction_encoderName h).callable)
  | .list item, h | .maybe item, h => encodesLegibly_of_callable (by simp) (by
      rw [Ty.isSpellable] at h
      rw [encoder]
      refine (encodesLegibly item h).encoder.bind fun e he => .pure (.call ?_ ?_)
      · exact isFunction_of_mem (by simp [libraryFunctions, Toolkit.all])
      · exact List.forall_mem_singleton.2 he)
  | .pair first second, h | .result first second, h => encodesLegibly_of_callable (by simp) (by
      rw [Ty.isSpellable, Bool.and_eq_true_iff] at h
      rw [encoder]
      refine (encodesLegibly first h.1).encoder.bind fun e he => ?_
      refine (encodesLegibly second h.2).encoder.bind fun e' he' => .pure (.call ?_ ?_)
      · exact isFunction_of_mem (by simp [Toolkit.all])
      · exact List.forall_mem_cons.2 ⟨he, List.forall_mem_singleton.2 he'⟩)
  | .triple first second third, h => encodesLegibly_of_callable (by simp) (by
      rw [Ty.isSpellable, Bool.and_eq_true_iff, Bool.and_eq_true_iff] at h
      rw [encoder]
      refine (encodesLegibly first h.1.1).encoder.bind fun e he => ?_
      refine (encodesLegibly second h.1.2).encoder.bind fun e' he' => ?_
      refine (encodesLegibly third h.2).encoder.bind fun e'' he'' => .pure (.call ?_ ?_)
      · exact isFunction_of_mem (by simp [Toolkit.all])
      · exact List.forall_mem_cons.2
          ⟨he, List.forall_mem_cons.2 ⟨he', List.forall_mem_singleton.2 he''⟩⟩)
  | .record fields, h => by
    rw [Ty.isSpellable] at h
    constructor
    · rw [encoder]
      refine always_freshValue.bind fun value hvalue => ?_
      refine (encodeFields_legible fields h (.var hvalue)).bind fun pairs hpairs => .pure ?_
      show Legible (.lambda ([value].map .var) _)
      exact .function (List.forall_mem_singleton.2 hvalue) (legible_encodeRecord hpairs)
    · intro subject hsubject
      rw [encodeOf]
      exact (encodeFields_legible fields h hsubject).bind
        fun pairs hpairs => .pure (legible_encodeRecord hpairs)

theorem encodeFields_legible : ∀ fields : List (String × Ty), areSpellable fields = true →
    ∀ {subject : Expr}, IsPath subject →
      Always (encodeFields subject fields) fun pairs => ∀ e ∈ pairs, Legible e
  | [], _, _, _ => by
    rw [encodeFields]
    exact .pure (List.forall_mem_nil _)
  | (name, type) :: rest, h, subject, hsubject => by
    rw [areSpellable, Bool.and_eq_true_iff, Bool.and_eq_true_iff] at h
    rw [encodeFields]
    refine ((encodesLegibly type h.1.2).encodeOf (hsubject.access h.1.1)).bind fun e he => ?_
    refine (encodeFields_legible rest h.2 hsubject).bind
      fun pairs hpairs => .pure (List.forall_mem_cons.2 ⟨.tuple (Nat.le_refl 2) ?_, hpairs⟩)
    exact List.forall_mem_cons.2 ⟨.string h.1.1, List.forall_mem_singleton.2 he⟩

end

/-- Branches of which each is one that can be read are the branches of such a list. -/
theorem exists_branches {pairs : List (Pattern × Expr)}
    (h : ∀ pair ∈ pairs, ∃ b : Branch, b.toPair = pair ∧ b.Named ∧ ∀ e ∈ b.items, Legible e) :
    ∃ branches : List Branch, branches.map Branch.toPair = pairs ∧
      (∀ b ∈ branches, b.Named) ∧ ∀ b ∈ branches, ∀ e ∈ b.items, Legible e := by
  induction pairs with
  | nil => exact ⟨[], rfl, List.forall_mem_nil _, List.forall_mem_nil _⟩
  | cons pair rest ih =>
    obtain ⟨⟨b, hb, hnamed, hitems⟩, hrest⟩ := List.forall_mem_cons.1 h
    obtain ⟨branches, hbranches, hallNamed, hallItems⟩ := ih hrest
    refine ⟨b :: branches, ?_, List.forall_mem_cons.2 ⟨hnamed, hallNamed⟩,
      List.forall_mem_cons.2 ⟨hitems, hallItems⟩⟩
    rw [List.map_cons, hb, hbranches]

theorem encodeCtor_legible {ctor : Ctor} (hname : isIdentifier ctor.name = true)
    (harguments : ∀ type ∈ ctor.arguments, type.isSpellable = true) :
    Always (encodeCtor ctor) fun pair =>
      ∃ b : Branch, b.toPair = pair ∧ b.Named ∧ ∀ e ∈ b.items, Legible e := by
  rw [encodeCtor]
  refine (Always.mapM fun _ _ => always_freshArgument).bind fun arguments hvariables => ?_
  have hencoded : ∀ place ∈ ctor.arguments.zip arguments,
      Always (encodeOf (.var place.2) place.1) Legible := by
    intro place hplace
    obtain ⟨htype, hargument⟩ := List.of_mem_zip hplace
    exact (encodesLegibly place.1 (harguments _ htype)).encodeOf (.var (hvariables _ hargument))
  refine (Always.mapM hencoded).bind fun encoded hall => .pure ?_
  refine ⟨⟨ctor.name, arguments, Toolkit.encodeVariant, ctor.name, encoded⟩, rfl, ?_, hall⟩
  refine ⟨isToken_of_isIdentifier hname, fun w hw => ?_, ?_, hname⟩
  · exact isToken_of_isIdentifier (hvariables w hw).identifier
  · exact (isFunction_of_mem (by simp [Toolkit.all])).toIsToken

/-- **Encoders are legible.** -/
theorem legible_encoderBody {d : TypeDef} (h : d.isSpellable = true) : Legible (encoderBody d) := by
  cases d with
  | «alias» name type =>
    rw [TypeDef.isSpellable, Bool.and_eq_true_iff] at h
    exact (encodesLegibly type h.2).encoder Names.none
  | custom name ctors =>
    simp only [TypeDef.isSpellable, Bool.and_eq_true_iff, List.all_eq_true] at h
    have hctors : Always (encodeCtors ctors) Legible := by
      rw [encodeCtors]
      refine always_freshValue.bind fun value hvalue => ?_
      refine (Always.mapM fun ctor hctor =>
        encodeCtor_legible (h.2 ctor hctor).1 (h.2 ctor hctor).2).bind fun pairs hpairs => .pure ?_
      obtain ⟨branches, rfl, hnamed, hitems⟩ := exists_branches hpairs
      have hpattern : [Pattern.var value] = [value].map .ofWord :=
        congrArg (fun p => [p]) (if_neg hvalue.ne_wildcard).symm
      rw [hpattern]
      have htoken := isToken_of_isIdentifier hvalue.identifier
      exact .lambdaCase (List.forall_mem_singleton.2 htoken) htoken
        (ofWord_of_isIdentifier hvalue.identifier) hnamed hitems
    exact hctors Names.none

/-! ## Decoders -/

theorem recordBuilder_legible {alias? : Option String}
    (halias : ∀ name ∈ alias?, isIdentifier name = true) {fields : List (String × Ty)}
    (hfields : ∀ field ∈ fields, isIdentifier field.1 = true) :
    Always (recordBuilder alias? fields) Legible := by
  fun_cases recordBuilder alias? fields with
  | case1 => exact .pure (.record (List.forall_mem_nil _) (List.forall_mem_nil _))
  | case2 fields name hne => exact .pure (.var (halias name rfl))
  | case3 fields hne =>
    refine (Always.mapM fun _ _ => always_freshField).bind fun params hparams => .pure ?_
    refine .function hparams (.record ?_ ?_)
    · exact List.forall_mem_map.2 fun place hplace => hfields _ (List.of_mem_zip hplace).1
    · exact List.forall_mem_map.2 fun place hplace => (hparams _ (List.of_mem_zip hplace).2).legible

theorem recordDecoder_legible {alias? : Option String}
    (halias : ∀ name ∈ alias?, isIdentifier name = true) {fields : List (String × Ty)}
    (hfields : ∀ field ∈ fields, isIdentifier field.1 = true)
    (hstages : Always (fieldDecoders fields) fun stages =>
      ∀ e ∈ stages, Legible e ∧ e.isApp = true) :
    Always (do
      let builder ← recordBuilder alias? fields
      return (Expr.call "Json.Decode.succeed" [builder]).through (← fieldDecoders fields))
      Legible := by
  refine (recordBuilder_legible halias hfields).bind fun builder hbuilder => ?_
  refine hstages.bind fun stages hstages => .pure (.through rfl (.call ?_ ?_) hstages)
  · exact isFunction_of_mem (by simp [libraryFunctions])
  · exact List.forall_mem_singleton.2 hbuilder

mutual

theorem decoder_legible : ∀ type : Ty, type.isSpellable = true → Always (decoder type) Legible
  | .unit, _ | .bool, _ | .int, _ | .float, _ | .char, _ | .string, _ => by
    rw [decoder]
    exact .pure (isFunction_of_mem (by simp [libraryFunctions, Toolkit.all])).legible
  | .named name, h => by
    rw [Ty.isSpellable] at h
    have hname : isIdentifier (decoderName name) = true :=
      isIdentifier_append (by decide) (chars_of_isIdentifier h).2
    have hwildcard : IsToken "_" := isToken_of_all (by decide) (by decide)
    have hlambda : Legible (.lambda (["_"].map .ofWord) (.var (decoderName name))) :=
      .lambda (List.forall_mem_singleton.2 hwildcard) (.var hname)
    rw [decoder]
    refine .pure (.call (isFunction_of_mem (by simp [libraryFunctions])) ?_)
    exact List.forall_mem_singleton.2 hlambda
  | .list item, h | .maybe item, h => by
    rw [Ty.isSpellable] at h
    rw [decoder]
    refine (decoder_legible item h).bind fun e he => .pure (.call ?_ ?_)
    · exact isFunction_of_mem (by simp [libraryFunctions, Toolkit.all])
    · exact List.forall_mem_singleton.2 he
  | .pair first second, h | .result first second, h => by
    rw [Ty.isSpellable, Bool.and_eq_true_iff] at h
    rw [decoder]
    refine (decoder_legible first h.1).bind fun e he => ?_
    refine (decoder_legible second h.2).bind fun e' he' => .pure (.call ?_ ?_)
    · exact isFunction_of_mem (by simp [Toolkit.all])
    · exact List.forall_mem_cons.2 ⟨he, List.forall_mem_singleton.2 he'⟩
  | .triple first second third, h => by
    rw [Ty.isSpellable, Bool.and_eq_true_iff, Bool.and_eq_true_iff] at h
    rw [decoder]
    refine (decoder_legible first h.1.1).bind fun e he => ?_
    refine (decoder_legible second h.1.2).bind fun e' he' => ?_
    refine (decoder_legible third h.2).bind fun e'' he'' => .pure (.call ?_ ?_)
    · exact isFunction_of_mem (by simp [Toolkit.all])
    · exact List.forall_mem_cons.2
        ⟨he, List.forall_mem_cons.2 ⟨he', List.forall_mem_singleton.2 he''⟩⟩
  | .record fields, h => by
    rw [Ty.isSpellable] at h
    rw [decoder]
    exact recordDecoder_legible (by simp) (isIdentifier_of_areSpellable h)
      (fieldDecoders_legible fields h)

theorem fieldDecoders_legible : ∀ fields : List (String × Ty), areSpellable fields = true →
    Always (fieldDecoders fields) fun stages => ∀ e ∈ stages, Legible e ∧ e.isApp = true
  | [], _ => by
    rw [fieldDecoders]
    exact .pure (List.forall_mem_nil _)
  | (name, type) :: rest, h => by
    rw [areSpellable, Bool.and_eq_true_iff, Bool.and_eq_true_iff] at h
    rw [fieldDecoders]
    refine (decoder_legible type h.1.2).bind fun e he => ?_
    refine (fieldDecoders_legible rest h.2).bind
      fun stages hstages => .pure (List.forall_mem_cons.2 ⟨⟨.call ?_ ?_, rfl⟩, hstages⟩)
    · exact isFunction_of_mem (by simp [Toolkit.all])
    · exact List.forall_mem_cons.2 ⟨.string h.1.1, List.forall_mem_singleton.2 he⟩

end

theorem decodeAlias_legible {name : String} {type : Ty} (hname : isIdentifier name = true)
    (h : type.isSpellable = true) : Always (decodeAlias name type) Legible := by
  fun_cases decodeAlias name type with
  | case1 fields =>
    rw [Ty.isSpellable] at h
    refine recordDecoder_legible ?_ (isIdentifier_of_areSpellable h)
      (fieldDecoders_legible fields h)
    rintro _ ⟨⟩
    exact hname
  | case2 => exact decoder_legible type h

theorem argumentDecoders_legible (i : Nat) {types : List Ty}
    (h : ∀ type ∈ types, type.isSpellable = true) :
    Always (argumentDecoders i types) fun arguments => ∀ e ∈ arguments, Legible e := by
  induction types generalizing i with
  | nil => exact .pure (List.forall_mem_nil _)
  | cons type rest ih =>
    obtain ⟨htype, hrest⟩ := List.forall_mem_cons.1 h
    rw [argumentDecoders]
    refine (decoder_legible type htype).bind fun e he => ?_
    refine (ih (i + 1) hrest).bind
      fun arguments harguments => .pure (List.forall_mem_cons.2 ⟨.call ?_ ?_, harguments⟩)
    · exact isFunction_of_mem (by simp [Toolkit.all])
    · exact List.forall_mem_cons.2 ⟨.int i, List.forall_mem_singleton.2 he⟩

theorem combine_legible {name : String} (hname : isIdentifier name = true) {arguments : List Expr}
    (h : ∀ e ∈ arguments, Legible e) : Legible (combine name arguments) := by
  have hctor : ∀ e ∈ [Expr.var name], Legible e := List.forall_mem_singleton.2 (.var hname)
  fun_cases combine name arguments with
  | case1 => exact .call (isFunction_of_mem (by simp [libraryFunctions])) hctor
  | case2 =>
    exact (Callable.call (isFunction_of_mem (by simp [libraryFunctions])) hctor).apply h
  | case3 _ hzero hone hle =>
    refine (Callable.call (isFunction_of_mem (List.mem_append_left _ ?_)) hctor).apply h
    have hne : arguments.length ≠ 0 ∧ arguments.length ≠ 1 := ⟨hzero, hone⟩
    exact mapFunction_mem _ hle (by omega)
  | case4 =>
    refine .through rfl (.call (isFunction_of_mem (by simp [libraryFunctions])) hctor) ?_
    refine List.forall_mem_map.2 fun e he => ⟨.call ?_ ?_, rfl⟩
    · exact isFunction_of_mem (by simp [Toolkit.all])
    · exact List.forall_mem_singleton.2 (h e he)

/-- **Decoders are legible.** -/
theorem legible_decoderBody {d : TypeDef} (h : d.isSpellable = true) : Legible (decoderBody d) := by
  cases d with
  | «alias» name type =>
    rw [TypeDef.isSpellable, Bool.and_eq_true_iff] at h
    exact decodeAlias_legible h.1 h.2 Names.none
  | custom name ctors =>
    simp only [TypeDef.isSpellable, Bool.and_eq_true_iff, List.all_eq_true] at h
    have hdecoders : ∀ ctor ∈ ctors, Always (decodeCtor ctor) Legible := by
      intro ctor hctor
      obtain ⟨hname, harguments⟩ := h.2 ctor hctor
      rw [decodeCtor]
      refine (argumentDecoders_legible 0 harguments).bind fun arguments harguments =>
        .pure (.call (isFunction_of_mem (by simp [Toolkit.all])) ?_)
      exact List.forall_mem_cons.2
        ⟨.string hname, List.forall_mem_singleton.2 (combine_legible hname harguments)⟩
    have hbody : Always (decodeCtors ctors) Legible := by
      rw [decodeCtors]
      refine (Always.mapM hdecoders).bind fun variants hvariants =>
        .pure (.call (isFunction_of_mem (by simp [Toolkit.all])) (List.forall_mem_singleton.2 ?_))
      exact .list hvariants
    exact hbody Names.none

/-! ## Text and tree -/

/-- **The text of a generated codec determines its syntax tree.**  Encoders of two definitions, each
on a page of its own, have the same text up to blanks just if they are the same expression, and so
have decoders. -/
theorem squeeze_render_codecs_iff {d d' : TypeDef} (h : d.isSpellable = true)
    (h' : d'.isSpellable = true) (width width' : Nat) :
    (squeeze (render width ((encoderBody d).toDoc .top)) =
        squeeze (render width' ((encoderBody d').toDoc .top)) ↔ encoderBody d = encoderBody d') ∧
      (squeeze (render width ((decoderBody d).toDoc .top)) =
        squeeze (render width' ((decoderBody d').toDoc .top)) ↔ decoderBody d = decoderBody d') :=
  ⟨(legible_encoderBody h).squeeze_render_iff (legible_encoderBody h'),
    (legible_decoderBody h).squeeze_render_iff (legible_decoderBody h')⟩

/-- A table, in two definitions that differ in their names only. -/
def tableAs (name : String) : TypeDef :=
  .alias name (.record [("title", .string), ("rows", .list (.maybe (.named "Row")))])

/-- The two have the same encoder, and decoders that can be told apart by their texts. -/
theorem squeeze_render_tableAs : (tableAs "Table").isSpellable = true ∧
    (tableAs "Sheet").isSpellable = true ∧
    squeeze (render 10 ((encoderBody (tableAs "Table")).toDoc .top)) =
      squeeze (render 80 ((encoderBody (tableAs "Sheet")).toDoc .top)) ∧
    squeeze (render 10 ((decoderBody (tableAs "Table")).toDoc .top)) ≠
      squeeze (render 80 ((decoderBody (tableAs "Sheet")).toDoc .top)) := by
  have htable : (tableAs "Table").isSpellable = true := by decide
  have hsheet : (tableAs "Sheet").isSpellable = true := by decide
  have hdecoder : decoderBody (tableAs "Table") ≠ decoderBody (tableAs "Sheet") := by
    intro heq
    have hfree := congrArg Expr.free heq
    revert hfree
    decide
  exact ⟨htable, hsheet, (squeeze_render_codecs_iff htable hsheet 10 80).1.2 rfl,
    (squeeze_render_codecs_iff htable hsheet 10 80).2.not.2 hdecoder⟩

end Elm
end ElmWire
