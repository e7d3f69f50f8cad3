import ElmWire.TypeScript
import ElmWire.Proofs.TypeScript.Grammar

/-!
# What generated TypeScript says

`Ty.reading` is the type that the text of a type says, and `TypeDef.reading` the declaration that
the text of a definition says.

`Writes text phrase` says that a text is a phrase of the grammar, whatever follows it.  There is one
lemma for each way in which a text is put together, and from them:

* `writes_type` — the text of a type is read as the type's reading;
* `Schema.readsAll`, `readsAll_genericTypes` — and so it is with the declarations of a schema and
  with the generic types.
-/

set_option autoImplicit false
namespace ElmWire

/-! ## Readings -/

namespace TypeScript

/-- The object type of a constructor. -/
def variantReading (name : String) (arguments : List TypeExpr) : TypeExpr :=
  .object ((Wire.variantTag, .literal name) ::
    arguments.mapIdx fun i type => (Wire.argKey i, type))

/-- The type of which there are some alternatives, or none. -/
def unionReading : List TypeExpr → TypeExpr
  | [] => .never
  | types => .ofAlternatives types

end TypeScript

mutual

/-- What the text of a type says. -/
def Ty.reading : Ty → TypeScript.TypeExpr
  | .unit => TypeScript.variantReading Wire.unitTag []
  | .bool => .boolean
  | .int | .float => .number
  | .char | .string => .string
  | .list item => .ref "Array" [item.reading]
  | .pair first second => .tuple [first.reading, second.reading]
  | .triple first second third => .tuple [first.reading, second.reading, third.reading]
  | .record fields => .object (TypeScript.fieldReadings fields)
  | .named name => .ref name []
  | .maybe item => .ref "Maybe" [item.reading]
  | .result error ok => .ref "Result" [error.reading, ok.reading]

/-- What the lines for the fields of a record say. -/
def TypeScript.fieldReadings : List (String × Ty) → List (String × TypeScript.TypeExpr)
  | [] => []
  | (name, type) :: rest => (name, type.reading) :: TypeScript.fieldReadings rest

end

/-- What the text of a definition says. -/
def TypeDef.reading : TypeDef → TypeScript.Declaration
  | .alias name type => ⟨name, [], type.reading⟩
  | .custom name ctors => ⟨name, [], TypeScript.unionReading (ctors.map fun ctor =>
      TypeScript.variantReading ctor.name (ctor.arguments.map Ty.reading))⟩

namespace TypeScript

/-- The declarations of the generic types. -/
def genericDeclarations : List Declaration := [
  ⟨"Maybe", ["T"],
    .union [variantReading Wire.just [.ref "T" []], variantReading Wire.nothing []]⟩,
  ⟨"Result", ["E", "T"],
    .union [variantReading Wire.ok [.ref "T" []], variantReading Wire.err [.ref "E" []]]⟩]

/-! ## Types -/

/-- The text is a phrase, whatever follows it. -/
def Writes (text : String) (phrase : Phrase) : Prop :=
  ∃ tokens, Lexes text tokens ∧ ∀ rest, Derives (tokens ++ rest) phrase rest

theorem Writes.type {text : String} {type : TypeExpr} (h : Writes text (.primary type)) :
    Writes text (.type type) := by
  obtain ⟨tokens, htokens, hderives⟩ := h
  exact ⟨tokens, htokens, fun rest => .type (.alternative (hderives rest))⟩

theorem Writes.reads {text : String} {type : TypeExpr} (h : Writes text (.primary type)) :
    Reads text type := by
  obtain ⟨tokens, htokens, hderives⟩ := h.type
  have hall := hderives []
  rw [List.append_nil] at hall
  exact ⟨tokens, htokens, hall⟩

theorem writes_word {w : String} (h : Lexes w [.word w]) : Writes w (.primary (.ofWord w)) :=
  ⟨_, h, fun rest => .word w rest⟩

theorem Writes.types {text : String} {type : TypeExpr} (h : Writes text (.primary type)) :
    Writes text (.types [type]) := by
  obtain ⟨tokens, htokens, hderives⟩ := h.type
  exact ⟨tokens, htokens, fun rest => .item (hderives rest)⟩

theorem Writes.types_cons {text texts : String} {type : TypeExpr} {types : List TypeExpr}
    (h : Writes text (.primary type)) (hrest : Writes texts (.types types)) :
    Writes (text ++ ", " ++ texts) (.types (type :: types)) := by
  obtain ⟨ts, hts, hderives⟩ := h.type
  obtain ⟨us, hus, hderives'⟩ := hrest
  have hcomma : Separator ", " [.mark .comma] := ⟨rfl, _, rfl, rfl⟩
  refine ⟨_, (hts.append hcomma).append_lexes hus, fun rest => ?_⟩
  rw [List.append_assoc, List.append_assoc]
  exact .items (hderives _) (hderives' rest)

/-- A name with type arguments. -/
theorem Writes.apply {text head name : String} {types : List TypeExpr}
    (h : Writes text (.types types)) (hhead : Closes head [.word name, .mark .less]) :
    Writes (head ++ text ++ ">") (.primary (.ref name types)) := by
  obtain ⟨ts, hts, hderives⟩ := h
  have hclose : Separator ">" [.mark .greater] := ⟨rfl, _, rfl, rfl⟩
  refine ⟨_, ((hhead.append_lexes hts).append hclose).lexes, fun rest => ?_⟩
  rw [List.append_assoc, List.append_assoc]
  exact .apply (hderives _)

theorem Writes.tuple {text : String} {types : List TypeExpr} (h : Writes text (.types types)) :
    Writes ("[" ++ text ++ "]") (.primary (.tuple types)) := by
  obtain ⟨ts, hts, hderives⟩ := h
  have hopen : Closes "[" [.mark .leftBracket] := rfl
  have hclose : Separator "]" [.mark .rightBracket] := ⟨rfl, _, rfl, rfl⟩
  refine ⟨_, ((hopen.append_lexes hts).append hclose).lexes, fun rest => ?_⟩
  rw [List.append_assoc, List.append_assoc]
  exact .tuple (hderives _)

/-! ## Object types -/

theorem Writes.indent {text : String} {phrase : Phrase} (h : Writes text phrase) (n : Nat) :
    Writes (Text.indent n text) phrase := by
  obtain ⟨ts, hts, hderives⟩ := h
  exact ⟨ts, hts.indent n, hderives⟩

/-- A text that has no tokens may be put in front. -/
theorem Writes.after {text blank : String} {phrase : Phrase} (h : Writes text phrase)
    (hblank : Closes blank []) : Writes (blank ++ text) phrase := by
  obtain ⟨ts, hts, hderives⟩ := h
  exact ⟨ts, hblank.append_lexes hts, hderives⟩

theorem Writes.object {text opening closing : String} {members : List (String × TypeExpr)}
    (h : Writes text (.members members)) (hopening : Closes opening [.mark .leftBrace])
    (hclosing : Separator closing [.mark .rightBrace]) :
    Writes (opening ++ text ++ closing) (.primary (.object members)) := by
  obtain ⟨ts, hts, hderives⟩ := h
  refine ⟨_, ((hopening.append_lexes hts).append hclosing).lexes, fun rest => ?_⟩
  rw [List.append_assoc, List.append_assoc]
  exact .object (hderives _)

theorem writes_noMembers : Writes "" (.members []) := ⟨[], rfl, fun rest => .noMembers rest⟩

theorem closes_colon {name : String} (hname : Lexes name [.word name]) :
    Closes (name ++ ": ") [.word name, .mark .colon] :=
  hname.append ⟨rfl, _, rfl, rfl⟩

theorem Writes.lastMember {text name : String} {type : TypeExpr}
    (h : Writes text (.primary type)) (hname : Lexes name [.word name]) :
    Writes (name ++ ": " ++ text) (.members [(name, type)]) := by
  obtain ⟨ts, hts, hderives⟩ := h.type
  exact ⟨_, (closes_colon hname).append_lexes hts, fun rest => .lastMember (hderives rest)⟩

/-- A member with others behind it. -/
theorem Writes.member {text texts name semicolon : String} {type : TypeExpr}
    {members : List (String × TypeExpr)} (h : Writes text (.primary type))
    (hname : Lexes name [.word name]) (hsemicolon : Separator semicolon [.mark .semicolon])
    (hrest : Writes texts (.members members)) :
    Writes (name ++ ": " ++ text ++ semicolon ++ texts) (.members ((name, type) :: members)) := by
  obtain ⟨ts, hts, hderives⟩ := h.type
  obtain ⟨us, hus, hderives'⟩ := hrest
  refine ⟨_, (((closes_colon hname).append_lexes hts).append hsemicolon).append_lexes hus,
    fun rest => ?_⟩
  rw [List.append_assoc, List.append_assoc, List.append_assoc]
  exact .member (hderives _) (hderives' rest)

/-- A place in an object type: its name, and a text for its type. -/
structure Place where
  name : String
  text : String
  type : TypeExpr

/-- The place is well written. -/
structure Place.Written (place : Place) : Prop where
  name : Lexes place.name [.word place.name]
  text : Writes place.text (.primary place.type)

/-- Members with semicolons between them. -/
theorem writes_members {places : List Place} (h : ∀ place ∈ places, place.Written) :
    Writes (String.intercalate "; " (places.map fun place => place.name ++ ": " ++ place.text))
      (.members (places.map fun place => (place.name, place.type))) := by
  induction places with
  | nil => exact writes_noMembers
  | cons place rest ih =>
    rw [List.forall_mem_cons] at h
    cases rest with
    | nil => simpa using h.1.text.lastMember h.1.name
    | cons next rest =>
      rw [List.map_cons, List.map_cons, String.intercalate_cons_cons]
      exact h.1.text.member h.1.name ⟨rfl, _, rfl, rfl⟩ (ih h.2)

/-- Members with a semicolon behind each, on lines of their own. -/
theorem writes_fieldLines {places : List Place} (h : ∀ place ∈ places, place.Written) :
    Writes (String.intercalate "\n" (places.map fun place => fieldLine place.name place.text))
      (.members (places.map fun place => (place.name, place.type))) := by
  induction places with
  | nil => exact writes_noMembers
  | cons place rest ih =>
    rw [List.forall_mem_cons] at h
    have hline : ∀ {texts : String} {members : List (String × TypeExpr)},
        Writes texts (.members members) → Writes (fieldLine place.name place.text ++ texts)
          (.members ((place.name, place.type) :: members)) := by
      intro texts members htexts
      have hsemicolon : Separator ";" [.mark .semicolon] := ⟨rfl, _, rfl, rfl⟩
      have hspaces : Closes (Text.spaces indentation) [] := rfl
      have hmember :=
        ((h.1.text.indent indentation).member h.1.name hsemicolon htexts).after hspaces
      simpa only [fieldLine, String.append_assoc] using hmember
    cases rest with
    | nil => simpa using hline writes_noMembers
    | cons next rest =>
      rw [List.map_cons, List.map_cons, String.intercalate_cons_cons, String.append_assoc]
      exact hline ((ih h.2).after rfl)

theorem lexes_argKey (i : Nat) : Lexes (Wire.argKey i) [.word (Wire.argKey i)] := by
  have hchars : (Wire.argKey i).toList = '_' :: Nat.toDigits 10 i := by
    rw [Wire.argKey, String.toList_append]
    exact congrArg ('_' :: ·) Nat.toList_repr
  refine lexes_name (by rw [hchars]; simp) ?_
  rw [hchars]
  refine List.forall_mem_cons.2 ⟨by decide, fun c hc => ?_⟩
  have hdigit := Nat.isDigit_of_mem_toDigits (by decide) (by decide) hc
  simp [isNameChar, Char.isAlphanum, hdigit]

/-- The places of a constructor: its tag, and its arguments. -/
def variantPlaces (name : String) (arguments : List (String × TypeExpr)) : List Place :=
  ⟨Wire.variantTag, Json.quote name, .literal name⟩ ::
    arguments.zipIdx.map fun place => ⟨Wire.argKey place.2, place.1.1, place.1.2⟩

theorem variantType_eq (name : String) (arguments : List (String × TypeExpr)) :
    variantType name (arguments.map Prod.fst) = "\x7b " ++ String.intercalate "; "
      ((variantPlaces name arguments).map fun place => place.name ++ ": " ++ place.text) ++
        " \x7d" := by
  rw [variantType, variantPlaces, List.mapIdx_eq_zipIdx_map, List.zipIdx_map, List.map_cons,
    List.map_map, List.map_map]
  rfl

theorem variantReading_eq (name : String) (arguments : List (String × TypeExpr)) :
    variantReading name (arguments.map Prod.snd) =
      .object ((variantPlaces name arguments).map fun place => (place.name, place.type)) := by
  rw [variantReading, variantPlaces, List.mapIdx_eq_zipIdx_map, List.zipIdx_map, List.map_cons,
    List.map_map, List.map_map]
  rfl

/-- The object type of a constructor. -/
theorem writes_variantType {name : String} (hname : ∀ c ∈ name.toList, isLiteralChar c)
    {arguments : List (String × TypeExpr)}
    (h : ∀ argument ∈ arguments, Writes argument.1 (.primary argument.2)) :
    Writes (variantType name (arguments.map Prod.fst))
      (.primary (variantReading name (arguments.map Prod.snd))) := by
  have htag : Lexes Wire.variantTag [.word Wire.variantTag] := lexes_lowerName (by decide)
  have hplaces : ∀ place ∈ variantPlaces name arguments, place.Written := by
    refine List.forall_mem_cons.2 ⟨⟨htag, [.text name], (closes_quote hname).lexes,
      fun rest => .text name rest⟩, fun place hplace => ?_⟩
    obtain ⟨⟨argument, i⟩, hargument, rfl⟩ := List.mem_map.1 hplace
    exact ⟨lexes_argKey i, h argument (List.fst_mem_of_mem_zipIdx hargument)⟩
  have hclosing : Separator " \x7d" [.mark .rightBrace] := ⟨rfl, _, rfl, rfl⟩
  rw [variantType_eq, variantReading_eq]
  exact (writes_members hplaces).object rfl hclosing

/-- The object type of a record. -/
theorem writes_recordType {places : List Place} (h : ∀ place ∈ places, place.Written) :
    Writes (recordType (places.map fun place => fieldLine place.name place.text))
      (.primary (.object (places.map fun place => (place.name, place.type)))) := by
  cases places with
  | nil => exact ⟨[.mark .leftBrace, .mark .rightBrace], rfl, fun rest => .object (.noMembers _)⟩
  | cons place rest =>
    have hclosing : Separator "\n\x7d" [.mark .rightBrace] := ⟨rfl, _, rfl, rfl⟩
    exact (writes_fieldLines h).object rfl hclosing

/-! ## The texts of types -/

theorem ofWord_upperName {name : String} (h : isUpperName name) :
    TypeExpr.ofWord name = .ref name [] := by
  rw [TypeExpr.ofWord]
  all_goals
    rintro rfl
    exact absurd h (by decide)

mutual

/-- **The text of a type is read as its reading.** -/
theorem writes_type : ∀ (type : Ty), (∀ name ∈ type.references, isUpperName name) →
    type.LowerFields → Writes type.toTypeScript (.primary type.reading)
  | .unit, _, _ => by
    rw [Ty.toTypeScript, Ty.reading]
    exact @writes_variantType Wire.unitTag (List.all_eq_true.1 rfl) [] (by simp)
  | .bool, _, _ => writes_word (w := "boolean") rfl
  | .int, _, _ | .float, _, _ => writes_word (w := "number") rfl
  | .char, _, _ | .string, _, _ => writes_word (w := "string") rfl
  | .list item, hnames, hfields => by
    rw [Ty.toTypeScript, Ty.reading]
    exact (writes_type item hnames hfields).types.apply rfl
  | .maybe item, hnames, hfields => by
    rw [Ty.toTypeScript, Ty.reading]
    exact (writes_type item hnames hfields).types.apply rfl
  | .pair first second, hnames, hfields => by
    obtain ⟨hnames, hnames'⟩ := List.forall_mem_append.1 hnames
    obtain ⟨hfields, hfields'⟩ := List.forall_mem_append.1 hfields
    have h := (writes_type first hnames hfields).types_cons
      (writes_type second hnames' hfields').types
    rw [Ty.toTypeScript, Ty.reading]
    simpa only [String.append_assoc] using h.tuple
  | .triple first second third, hnames, hfields => by
    obtain ⟨hnames, hnames''⟩ := List.forall_mem_append.1 hnames
    obtain ⟨hnames, hnames'⟩ := List.forall_mem_append.1 hnames
    obtain ⟨hfields, hfields''⟩ := List.forall_mem_append.1 hfields
    obtain ⟨hfields, hfields'⟩ := List.forall_mem_append.1 hfields
    have h := (writes_type first hnames hfields).types_cons
      ((writes_type second hnames' hfields').types_cons
        (writes_type third hnames'' hfields'').types)
    rw [Ty.toTypeScript, Ty.reading]
    simpa only [String.append_assoc] using h.tuple
  | .result error ok, hnames, hfields => by
    obtain ⟨hnames, hnames'⟩ := List.forall_mem_append.1 hnames
    obtain ⟨hfields, hfields'⟩ := List.forall_mem_append.1 hfields
    have hhead : Closes "Result<" [.word "Result", .mark .less] := rfl
    have h := (writes_type error hnames hfields).types_cons (writes_type ok hnames' hfields').types
    rw [Ty.toTypeScript, Ty.reading]
    simpa only [String.append_assoc] using h.apply hhead
  | .named name, hnames, _ => by
    have hname := hnames name (List.mem_singleton_self name)
    rw [Ty.toTypeScript, Ty.reading, ← ofWord_upperName hname]
    exact writes_word (lexes_upperName hname)
  | .record fields, hnames, hfields => by
    obtain ⟨hlower, hfields⟩ := List.forall_mem_cons.1 hfields
    obtain ⟨places, hplaces, hlines, hreadings⟩ := exists_places fields hlower hnames hfields
    rw [Ty.toTypeScript, Ty.reading, hlines, hreadings]
    exact writes_recordType hplaces

/-- The lines for the fields of a record. -/
theorem exists_places : ∀ (fields : List (String × Ty)), (∀ field ∈ fields, isLowerName field.1) →
    (∀ name ∈ fieldReferences fields, isUpperName name) →
    (∀ record ∈ fieldRecords fields, ∀ field ∈ record, isLowerName field.1) →
    ∃ places : List Place, (∀ place ∈ places, place.Written) ∧
      fieldLines fields = places.map (fun place => fieldLine place.name place.text) ∧
      fieldReadings fields = places.map fun place => (place.name, place.type)
  | [], _, _, _ => ⟨[], by simp, rfl, rfl⟩
  | (name, type) :: rest, hlower, hnames, hfields => by
    obtain ⟨hname, hlower⟩ := List.forall_mem_cons.1 hlower
    obtain ⟨hnames, hnames'⟩ := List.forall_mem_append.1 hnames
    obtain ⟨hfields, hfields'⟩ := List.forall_mem_append.1 hfields
    obtain ⟨places, hplaces, hlines, hreadings⟩ := exists_places rest hlower hnames' hfields'
    have hplace : (⟨name, type.toTypeScript, type.reading⟩ : Place).Written :=
      ⟨lexes_lowerName hname, writes_type type hnames hfields⟩
    refine ⟨_ :: places, List.forall_mem_cons.2 ⟨hplace, hplaces⟩, ?_, ?_⟩
    · rw [fieldLines, hlines]
      rfl
    · rw [fieldReadings, hreadings]
      rfl

end

/-! ## The texts of declarations -/

/-- The text is a declaration, and whatever follows may follow at once. -/
def Declares (text : String) (d : Declaration) : Prop :=
  ∃ tokens, Closes text tokens ∧ ∀ rest, Derives (tokens ++ rest) (.declaration d) rest

/-- The text is the name of a declaration with its parameters. -/
def Heads (text name : String) (params : List String) : Prop :=
  ∃ tokens, Lexes text tokens ∧ ∀ (ts rest : List Token) (type : TypeExpr),
    Derives ts (.type type) (.mark .semicolon :: rest) →
      Derives (.word "export" :: .word "type" :: (tokens ++ .mark .equals :: ts))
        (.declaration ⟨name, params, type⟩) rest

theorem heads_name {name : String} (h : isUpperName name) : Heads name name [] :=
  ⟨[.word name], lexes_upperName h, fun _ _ _ => .declaration⟩

theorem Heads.declares {head name equals text : String} {params : List String} {type : TypeExpr}
    (hhead : Heads head name params) (hequals : Separator equals [.mark .equals])
    (h : Writes text (.type type)) :
    Declares ("export type " ++ head ++ equals ++ text ++ ";") ⟨name, params, type⟩ := by
  obtain ⟨ts, hts, hderives⟩ := hhead
  obtain ⟨us, hus, hderives'⟩ := h
  have hexport : Closes "export type " [.word "export", .word "type"] := rfl
  have hsemicolon : Separator ";" [.mark .semicolon] := ⟨rfl, _, rfl, rfl⟩
  refine ⟨_, (((hexport.append_lexes hts).append hequals).append_lexes hus).append hsemicolon,
    fun rest => ?_⟩
  simp only [List.append_assoc]
  exact hderives _ rest type (hderives' _)

/-- The line for an alternative. -/
theorem writes_alternativeLines {members : List (String × TypeExpr)} (hne : members ≠ [])
    (h : ∀ member ∈ members, Writes member.1 (.primary member.2)) :
    ∃ tokens, Lexes (String.intercalate "\n" (members.map fun member =>
        Text.spaces indentation ++ "| " ++ Text.indent indentation member.1))
        (.mark .bar :: tokens) ∧
      ∀ rest, Derives (tokens ++ rest) (.alternatives (members.map Prod.snd)) rest := by
  induction members with
  | nil => exact absurd rfl hne
  | cons member rest ih =>
    rw [List.forall_mem_cons] at h
    obtain ⟨ts, hts, hderives⟩ := h.1.indent indentation
    have hbar : Closes (Text.spaces indentation ++ "| ") [.mark .bar] := rfl
    have hline := hbar.append_lexes hts
    cases rest with
    | nil =>
      refine ⟨ts, by simpa using hline, fun rest => .alternative (hderives rest)⟩
    | cons next rest =>
      obtain ⟨us, hus, hderives'⟩ := ih (List.cons_ne_nil _ _) h.2
      have hnewline : Separator "\n" [] := ⟨rfl, _, rfl, rfl⟩
      rw [List.map_cons, List.map_cons, String.intercalate_cons_cons]
      refine ⟨ts ++ .mark .bar :: us, ?_, fun rest => ?_⟩
      · simpa using (hline.append hnewline).append_lexes hus
      · rw [List.append_assoc]
        exact .alternatives (hderives _) (hderives' rest)

/-- A union type. -/
theorem declares_unionType {head name : String} {params : List String}
    (hhead : Heads head name params) {members : List (String × TypeExpr)}
    (h : ∀ member ∈ members, Writes member.1 (.primary member.2)) :
    Declares (unionType head (members.map Prod.fst))
      ⟨name, params, unionReading (members.map Prod.snd)⟩ := by
  cases members with
  | nil =>
    have hequals : Separator " = " [.mark .equals] := ⟨rfl, _, rfl, rfl⟩
    have hnever : Writes "never" (.primary (.ofWord "never")) := writes_word rfl
    have htext : "export type " ++ head ++ " = never;" =
        "export type " ++ head ++ " = " ++ "never" ++ ";" := by
      rw [String.append_assoc, String.append_assoc, String.append_assoc, String.append_assoc]
      rfl
    show Declares ("export type " ++ head ++ " = never;") _
    rw [htext]
    exact hhead.declares hequals hnever.type
  | cons member rest =>
    obtain ⟨ts, hts, hderives⟩ := writes_alternativeLines (List.cons_ne_nil member rest) h
    have hequals : Separator " =\n" [.mark .equals] := ⟨rfl, _, rfl, rfl⟩
    have hbody : Writes (String.intercalate "\n" ((member :: rest).map fun member =>
        Text.spaces indentation ++ "| " ++ Text.indent indentation member.1))
        (.type (.ofAlternatives ((member :: rest).map Prod.snd))) :=
      ⟨_, hts, fun rest => .bar (hderives rest)⟩
    show Declares ("export type " ++ head ++ " =\n" ++ String.intercalate "\n"
      (((member :: rest).map Prod.fst).map fun member =>
        Text.spaces indentation ++ "| " ++ Text.indent indentation member) ++ ";") _
    rw [List.map_map]
    exact hhead.declares hequals hbody

theorem Declares.readsAll {text : String} {d : Declaration} (h : Declares text d) :
    ReadsAll text [d] := by
  obtain ⟨tokens, htokens, hderives⟩ := h
  have hone := hderives []
  rw [List.append_nil] at hone
  exact ⟨tokens, htokens.lexes, .declarations hone .noDeclarations⟩

/-- Declarations with blank lines between them. -/
theorem readsAll_of_declares {entries : List (String × Declaration)}
    (h : ∀ entry ∈ entries, Declares entry.1 entry.2) :
    ReadsAll (String.intercalate "\n\n" (entries.map Prod.fst)) (entries.map Prod.snd) := by
  induction entries with
  | nil => exact ⟨[], rfl, .noDeclarations⟩
  | cons entry rest ih =>
    rw [List.forall_mem_cons] at h
    cases rest with
    | nil =>
      rw [List.map_singleton, List.map_singleton, String.intercalate_singleton]
      exact h.1.readsAll
    | cons next rest =>
      obtain ⟨ts, hts, hderives⟩ := h.1
      obtain ⟨us, hus, hderives'⟩ := ih h.2
      have hblank : Closes "\n\n" [] := rfl
      refine ⟨ts ++ us, ?_, .declarations (hderives us) hderives'⟩
      rw [List.map_cons, List.map_cons, String.intercalate_cons_cons]
      simpa using (hts.append hblank).append_lexes hus

/-- A constructor whose argument has the type of a parameter. -/
theorem writes_variantType_param {name param : String} (hname : ∀ c ∈ name.toList, isLiteralChar c)
    (hparam : isUpperName param) :
    Writes (variantType name [param]) (.primary (variantReading name [.ref param []])) := by
  refine @writes_variantType name hname [(param, .ref param [])] ?_
  rw [List.forall_mem_singleton, ← ofWord_upperName hparam]
  exact writes_word (lexes_upperName hparam)

theorem declares_maybe :
    Declares (unionType "Maybe<T>" [variantType Wire.just ["T"], variantType Wire.nothing []])
      ⟨"Maybe", ["T"],
        .union [variantReading Wire.just [.ref "T" []], variantReading Wire.nothing []]⟩ := by
  have hhead : Heads "Maybe<T>" "Maybe" ["T"] :=
    ⟨[.word "Maybe", .mark .less, .word "T", .mark .greater], rfl, fun _ _ _ h =>
      .generic (.param "T" _) h⟩
  have hnothing : Writes (variantType Wire.nothing [])
      (.primary (variantReading Wire.nothing [])) :=
    @writes_variantType Wire.nothing (List.all_eq_true.1 rfl) [] (by simp)
  have hmembers : ∀ member ∈ [(variantType Wire.just ["T"], variantReading Wire.just [.ref "T" []]),
      (variantType Wire.nothing [], variantReading Wire.nothing [])],
      Writes member.1 (.primary member.2) :=
    List.forall_mem_cons.2 ⟨writes_variantType_param (List.all_eq_true.1 rfl) (by decide),
      List.forall_mem_singleton.2 hnothing⟩
  have hunion := declares_unionType hhead hmembers
  simp only [List.map_cons, List.map_nil] at hunion
  exact hunion

theorem declares_result :
    Declares (unionType "Result<E, T>" [variantType Wire.ok ["T"], variantType Wire.err ["E"]])
      ⟨"Result", ["E", "T"],
        .union [variantReading Wire.ok [.ref "T" []], variantReading Wire.err [.ref "E" []]]⟩ := by
  have hhead : Heads "Result<E, T>" "Result" ["E", "T"] :=
    ⟨[.word "Result", .mark .less, .word "E", .mark .comma, .word "T", .mark .greater], rfl,
      fun _ _ _ h => .generic (.params (.param "T" _)) h⟩
  have hmembers : ∀ member ∈ [(variantType Wire.ok ["T"], variantReading Wire.ok [.ref "T" []]),
      (variantType Wire.err ["E"], variantReading Wire.err [.ref "E" []])],
      Writes member.1 (.primary member.2) :=
    List.forall_mem_cons.2 ⟨writes_variantType_param (List.all_eq_true.1 rfl) (by decide),
      List.forall_mem_singleton.2 (writes_variantType_param (List.all_eq_true.1 rfl) (by decide))⟩
  have hunion := declares_unionType hhead hmembers
  simp only [List.map_cons, List.map_nil] at hunion
  exact hunion

/-- **The generic types are read as their declarations.** -/
theorem readsAll_genericTypes : ReadsAll genericTypes genericDeclarations := by
  obtain ⟨ts, hts, hmaybe⟩ := declares_maybe
  obtain ⟨us, hus, hresult⟩ := declares_result
  have hblank : Closes "\n\n" [] := rfl
  have hone := hresult []
  rw [List.append_nil] at hone
  have htexts := ((hts.append hblank).append hus).lexes
  rw [List.append_nil] at htexts
  exact ⟨ts ++ us, htexts, .declarations (hmaybe us) (.declarations hone .noDeclarations)⟩

end TypeScript

open TypeScript

/-- The text of a definition is read as its reading. -/
theorem TypeDef.declares {schema : Schema} (hnames : schema.Identifiers) (hclosed : schema.Closed)
    {d : TypeDef} (hd : d ∈ schema.defs) : Declares d.toTypeScript d.reading := by
  have hhead : Heads d.name d.name [] := heads_name (hnames.types _ (List.mem_map_of_mem hd))
  have htype : ∀ type : Ty, (∀ name ∈ type.references, schema.contains name) →
      type.records ⊆ schema.records → Writes type.toTypeScript (.primary type.reading) :=
    fun type hover hrecords => writes_type type
      (fun name hname => hnames.reference (hover name hname))
      fun fields hfields => hnames.fields fields (hrecords hfields)
  cases d with
  | «alias» name type =>
    have hequals : Separator " = " [.mark .equals] := ⟨rfl, _, rfl, rfl⟩
    refine hhead.declares hequals (htype type (hclosed _ hd) fun fields hfields => ?_).type
    exact List.mem_flatMap.2 ⟨_, hd, hfields⟩
  | custom name ctors =>
    have hvariants : ∀ member ∈ ctors.map (fun ctor =>
        (variantType ctor.name (ctor.arguments.map Ty.toTypeScript),
          variantReading ctor.name (ctor.arguments.map Ty.reading))),
        Writes member.1 (.primary member.2) := by
      intro member hmember
      obtain ⟨ctor, hctor, rfl⟩ := List.mem_map.1 hmember
      have hname : isUpperName ctor.name :=
        hnames.constructors _ (List.mem_flatMap.2 ⟨_, hd, List.mem_map_of_mem hctor⟩)
      have hchars : ∀ c ∈ ctor.name.toList, isLiteralChar c := fun c hc =>
        isLiteralChar_of_isNameChar ((chars_of_isUpperName hname).2 c hc)
      have harguments : ∀ argument ∈ ctor.arguments.map (fun type =>
          (type.toTypeScript, type.reading)), Writes argument.1 (.primary argument.2) := by
        intro argument hargument
        obtain ⟨type, harg, rfl⟩ := List.mem_map.1 hargument
        refine htype type (fun reference hreference => hclosed _ hd reference
          (references_subset_of_mem_arguments hctor harg name hreference)) fun fields hfields => ?_
        exact List.mem_flatMap.2 ⟨_, hd, List.mem_flatMap.2 ⟨ctor, hctor,
          List.mem_flatMap.2 ⟨type, harg, hfields⟩⟩⟩
      have hwrites := writes_variantType hchars harguments
      rw [List.map_map, List.map_map] at hwrites
      exact hwrites
    have hdeclares := declares_unionType hhead hvariants
    rw [List.map_map, List.map_map] at hdeclares
    exact hdeclares

/-- **The declarations of a schema are read as those of its definitions.** -/
theorem Schema.readsAll {schema : Schema} (hnames : schema.Identifiers) (hclosed : schema.Closed) :
    ReadsAll schema.toTypeScript (schema.defs.map TypeDef.reading) := by
  have hentries : ∀ entry ∈ schema.defs.map (fun d => (d.toTypeScript, d.reading)),
      Declares entry.1 entry.2 := by
    intro entry hentry
    obtain ⟨d, hd, rfl⟩ := List.mem_map.1 hentry
    exact d.declares hnames hclosed hd
  have hreads := readsAll_of_declares hentries
  rw [List.map_map, List.map_map] at hreads
  exact hreads

end ElmWire
