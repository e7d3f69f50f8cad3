import ElmWire.Json.Printer
import ElmWire.Proofs.Json.Number
import ElmWire.Proofs.Members
import ElmWire.Proofs.Parts

/-!
# Reading what was printed

`Json.compact` writes a value without blanks and with as few escapes as possible, and that is one of
the many ways to write it.

* `Json.form` — the form in which a value is printed.  `texts_compact`: the printed text spells it.
* `Json.sorted` — the value with the members of all objects in order.  `evaluate?_form`: that is the
  value of the form.
* `Json.parse?_compact` — **reading what was printed gives back the value**, up to the order of
  members.

How a float is printed and read is left open here: `Json.Numbers Number.ReadsBack` says of a value
that its numbers are read back from their own texts.
-/

set_option autoImplicit false
namespace ElmWire.Json

/-! ## Tokens one after the other -/

theorem blanks_nil : Blanks [] := by simp [Blanks]

theorem Token.Texts.blanks {tokens : List Token} {blanks text : List Char} (hblanks : Blanks blanks)
    (h : Token.Texts tokens text) : Token.Texts tokens (blanks ++ text) := by
  cases h with
  | nil h => exact .nil (List.forall_mem_append.2 ⟨hblanks, h⟩)
  | cons h htext hrest =>
    rw [← List.append_assoc]
    exact .cons (List.forall_mem_append.2 ⟨hblanks, h⟩) htext hrest

theorem Token.Texts.append {first second : List Token} {text more : List Char}
    (hfirst : Token.Texts first text) (hsecond : Token.Texts second more) :
    Token.Texts (first ++ second) (text ++ more) := by
  induction hfirst with
  | nil hblanks => exact hsecond.blanks hblanks
  | cons hblanks htext _ ih =>
    rw [List.append_assoc, List.append_assoc]
    exact .cons hblanks htext ih

theorem Token.Text.cons {token : Token} {tokens : List Token} {text rest : List Char}
    (htext : token.Text text) (hrest : Token.Texts tokens rest) :
    Token.Texts (token :: tokens) (text ++ rest) :=
  .cons blanks_nil htext hrest

theorem Token.Text.single {token : Token} {text : List Char} (h : token.Text text) :
    Token.Texts [token] text := by
  simpa using h.cons (.nil blanks_nil)

/-- The text of the entries of a container. -/
theorem texts_separated {entries : List (List Token)} {texts : List String}
    (h : List.Forall₂ (fun tokens text => Token.Texts tokens text.toList) entries texts) :
    Token.Texts (separated entries) (String.intercalate "," texts).toList := by
  induction h with
  | nil => exact .nil blanks_nil
  | @cons entry text entries texts hentry hrest ih =>
    cases hrest with
    | nil => simpa [separated] using hentry
    | @cons next nextText entries texts hnext hrest =>
      have hseparated : separated (entry :: next :: entries) =
          entry ++ .comma :: separated (next :: entries) := by
        simp [separated]
      rw [hseparated, String.intercalate_cons_cons, String.toList_append, String.toList_append,
        List.append_assoc]
      exact hentry.append (Token.Text.comma.cons ih)

/-! ## Strings -/

theorem hexValue?_digitChar {n : Nat} (h : n < 16) : hexValue? n.digitChar = some n := by
  decide +revert

theorem hex4_eq {n : Nat} (h : n < 256) :
    hex4 n = ['0', '0', (n / 16).digitChar, (n % 16).digitChar] := by
  rw [hex4]
  rcases Nat.lt_or_ge n 16 with hlt | hge
  · have hhigh : n / 16 = 0 := by omega
    have hlow : n % 16 = n := by omega
    rw [Nat.toDigits_of_lt_base hlt, hhigh, hlow]
    rfl
  · have hlt : n / 16 < 16 := by omega
    rw [Nat.toDigits_of_base_le (by omega) hge, Nat.toDigits_of_lt_base hlt]
    rfl

theorem hexText_hex4 {n : Nat} (h : n < 256) : HexText n (hex4 n) := by
  rw [hex4_eq h]
  have hvalue : n = 16 * (16 * (16 * 0 + 0) + n / 16) + n % 16 := by omega
  have hdigits := HexText.mk (hexValue?_digitChar (by omega : 0 < 16))
    (hexValue?_digitChar (by omega : 0 < 16)) (hexValue?_digitChar (by omega : n / 16 < 16))
    (hexValue?_digitChar (by omega : n % 16 < 16))
  rwa [← hvalue] at hdigits

theorem charText_escapeChar (c : Char) : CharText c (escapeChar c) := by
  rw [escapeChar.eq_def]
  split
  case h_8 hquote hslash _ _ _ _ _ =>
    split
    · next hcontrol => exact .single (.code (hexText_hex4 (by omega)))
    · next hcontrol => exact .single (.plain hquote hslash hcontrol)
  all_goals exact .single (.letter rfl)

theorem charsText_flatMap (cs : List Char) : CharsText cs (cs.flatMap escapeChar) := by
  induction cs with
  | nil => exact .nil
  | cons c cs ih =>
    rw [List.flatMap_cons]
    exact .cons (charText_escapeChar c) ih

theorem text_quote (s : String) : Token.Text (.string (some s)) (quote s).toList := by
  rw [quote, String.toList_ofList]
  exact .string (charsText_flatMap s.toList)

/-! ## Values -/

/-- All numbers in the value have the property. -/
inductive Numbers (P : Number → Prop) : Json → Prop
  | intro {json : Json} (hnumber : ∀ n, json = .number n → P n)
      (hparts : ∀ part ∈ json.parts, Numbers P part) : Numbers P json

/-- The members of all objects in the value are in increasing order of their names. -/
inductive Ordered : Json → Prop
  | intro {json : Json} (hmembers : ∀ members, json = .object members → Members.Ordered members)
      (hparts : ∀ part ∈ json.parts, Ordered part) : Ordered json

theorem numbers_iff {P : Number → Prop} {json : Json} : json.Numbers P ↔
    (∀ n, json = .number n → P n) ∧ ∀ part ∈ json.parts, part.Numbers P :=
  ⟨fun ⟨hnumber, hparts⟩ => ⟨hnumber, hparts⟩, fun ⟨hnumber, hparts⟩ => ⟨hnumber, hparts⟩⟩

theorem ordered_iff {json : Json} : json.Ordered ↔
    (∀ members, json = .object members → Members.Ordered members) ∧
      ∀ part ∈ json.parts, part.Ordered :=
  ⟨fun ⟨hmembers, hparts⟩ => ⟨hmembers, hparts⟩, fun ⟨hmembers, hparts⟩ => ⟨hmembers, hparts⟩⟩

section

variable {P : Number → Prop}

theorem Numbers.leaf {json : Json} (hparts : json.parts = []) (hnumber : ∀ n, json ≠ .number n) :
    json.Numbers P := by
  rw [numbers_iff, hparts]
  exact ⟨fun n heq => absurd heq (hnumber n), by simp⟩

@[simp] theorem numbers_string (s : String) : (string s).Numbers P := .leaf rfl (by simp)

@[simp] theorem numbers_number {n : Number} : (number n).Numbers P ↔ P n := by
  rw [numbers_iff]
  simp [parts]

@[simp] theorem numbers_array {items : List Json} :
    (array items).Numbers P ↔ ∀ item ∈ items, item.Numbers P := by
  rw [numbers_iff]
  simp [parts]

@[simp] theorem numbers_object {members : List (String × Json)} :
    (object members).Numbers P ↔ ∀ member ∈ members, member.2.Numbers P := by
  rw [numbers_iff, parts, List.forall_mem_map]
  simp

end

theorem Ordered.leaf {json : Json} (hparts : json.parts = [])
    (hobject : ∀ members, json ≠ .object members) : json.Ordered := by
  rw [ordered_iff, hparts]
  exact ⟨fun members heq => absurd heq (hobject members), by simp⟩

@[simp] theorem ordered_array {items : List Json} :
    (array items).Ordered ↔ ∀ item ∈ items, item.Ordered := by
  rw [ordered_iff]
  simp [parts]

@[simp] theorem ordered_object {members : List (String × Json)} :
    (object members).Ordered ↔ Members.Ordered members ∧ ∀ member ∈ members, member.2.Ordered := by
  rw [ordered_iff, parts, List.forall_mem_map]
  simp

mutual

/-- The form in which a value is printed. -/
def form : Json → Form
  | .null => .null
  | .bool b => .bool b
  | .number n => .number n.literal
  | .string s => .string (some s)
  | .array items => .array (itemForms items)
  | .object members => .object (memberForms members)

/-- The forms of the items of an array. -/
def itemForms : List Json → List Form
  | [] => []
  | item :: rest => item.form :: itemForms rest

/-- The forms of the members of an object. -/
def memberForms : List (String × Json) → List (Option String × Form)
  | [] => []
  | (name, value) :: rest => (some name, value.form) :: memberForms rest

end

theorem itemForms_eq (items : List Json) : itemForms items = items.map form := by
  induction items with
  | nil => rfl
  | cons item items ih => rw [itemForms, ih, List.map_cons]

theorem memberForms_eq (members : List (String × Json)) :
    memberForms members = members.map fun member => (some member.1, member.2.form) := by
  induction members with
  | nil => rfl
  | cons member members ih => rw [memberForms, ih, List.map_cons]

mutual

/-- The value with the members of all its objects in order.  Of members with one name the last one
counts. -/
def sorted : Json → Json
  | .array items => .array (sortedItems items)
  | .object members => .object (Members.ofList (sortedMembers members))
  | scalar => scalar

/-- The items of an array, each with its members in order. -/
def sortedItems : List Json → List Json
  | [] => []
  | item :: rest => item.sorted :: sortedItems rest

/-- The members of an object, each with its own members in order. -/
def sortedMembers : List (String × Json) → List (String × Json)
  | [] => []
  | (name, value) :: rest => (name, value.sorted) :: sortedMembers rest

end

mutual

/-- How deep arrays and objects are nested in a value. -/
def depth : Json → Nat
  | .array items => itemsDepth items + 1
  | .object members => membersDepth members + 1
  | _ => 0

/-- The greatest depth among the items of an array. -/
def itemsDepth : List Json → Nat
  | [] => 0
  | item :: rest => max item.depth (itemsDepth rest)

/-- The greatest depth among the members of an object. -/
def membersDepth : List (String × Json) → Nat
  | [] => 0
  | (_, value) :: rest => max value.depth (membersDepth rest)

end

mutual

theorem depth_form : ∀ json : Json, json.form.depth = json.depth
  | .null | .bool _ | .number _ | .string _ => rfl
  | .array items => congrArg (· + 1) (depthItems_itemForms items)
  | .object members => congrArg (· + 1) (depthMembers_memberForms members)

theorem depthItems_itemForms : ∀ items : List Json, depthItems (itemForms items) = itemsDepth items
  | [] => rfl
  | item :: rest => by
    rw [itemForms, depthItems, itemsDepth, depth_form item, depthItems_itemForms rest]

theorem depthMembers_memberForms : ∀ members : List (String × Json),
    depthMembers (memberForms members) = membersDepth members
  | [] => rfl
  | (_, value) :: rest => by
    rw [memberForms, depthMembers, membersDepth, depth_form value, depthMembers_memberForms rest]

end

/-! ## The printed text -/

mutual

/-- The printed text spells the form of the value. -/
theorem texts_compact (json : Json) (h : json.Numbers Number.ReadsBack) :
    Token.Texts json.form.tokens json.compact.toList := by
  match json with
  | .null => exact Token.Text.null.single
  | .bool true => exact Token.Text.yes.single
  | .bool false => exact Token.Text.no.single
  | .number n => exact (numbers_number.1 h).text.single
  | .string s => exact (text_quote s).single
  | .array items =>
    have hitems := texts_separated (texts_compactItems items (numbers_array.1 h))
    rw [compact, String.toList_append, String.toList_append, List.append_assoc]
    exact Token.Text.openBracket.cons (hitems.append Token.Text.closeBracket.single)
  | .object members =>
    have hmembers := texts_separated (texts_compactMembers members (numbers_object.1 h))
    rw [compact, String.toList_append, String.toList_append, List.append_assoc]
    exact Token.Text.openBrace.cons (hmembers.append Token.Text.closeBrace.single)

theorem texts_compactItems (items : List Json)
    (h : ∀ item ∈ items, item.Numbers Number.ReadsBack) :
    List.Forall₂ (fun tokens text => Token.Texts tokens text.toList) (itemTokens (itemForms items))
      (compactItems items) := by
  match items with
  | [] => exact .nil
  | item :: rest =>
    obtain ⟨hitem, hrest⟩ := List.forall_mem_cons.1 h
    exact .cons (texts_compact item hitem) (texts_compactItems rest hrest)

theorem texts_compactMembers (members : List (String × Json))
    (h : ∀ member ∈ members, member.2.Numbers Number.ReadsBack) :
    List.Forall₂ (fun tokens text => Token.Texts tokens text.toList)
      (memberTokens (memberForms members)) (compactMembers members) := by
  match members with
  | [] => exact .nil
  | (name, value) :: rest =>
    obtain ⟨hvalue, hrest⟩ := List.forall_mem_cons.1 h
    refine .cons ?_ (texts_compactMembers rest hrest)
    rw [String.toList_append, String.toList_append, List.append_assoc]
    exact (text_quote name).cons (Token.Text.colon.cons (texts_compact value hvalue))

end

/-! ## The value of the printed text -/

mutual

theorem evaluate?_form (json : Json) (h : json.Numbers Number.ReadsBack) :
    json.form.evaluate? = some json.sorted := by
  match json with
  | .null | .bool _ | .string _ => rfl
  | .number n => rw [form, Form.evaluate?, (numbers_number.1 h).ofLiteral?]; rfl
  | .array items =>
    rw [form, Form.evaluate?, evaluateItems?_itemForms items (numbers_array.1 h)]
    rfl
  | .object members =>
    rw [form, Form.evaluate?, evaluateMembers?_memberForms members (numbers_object.1 h)]
    rfl

theorem evaluateItems?_itemForms (items : List Json)
    (h : ∀ item ∈ items, item.Numbers Number.ReadsBack) :
    evaluateItems? (itemForms items) = some (sortedItems items) := by
  match items with
  | [] => rfl
  | item :: rest =>
    obtain ⟨hitem, hrest⟩ := List.forall_mem_cons.1 h
    rw [itemForms, evaluateItems?, evaluate?_form item hitem, evaluateItems?_itemForms rest hrest]
    rfl

theorem evaluateMembers?_memberForms (members : List (String × Json))
    (h : ∀ member ∈ members, member.2.Numbers Number.ReadsBack) :
    evaluateMembers? (memberForms members) = some (sortedMembers members) := by
  match members with
  | [] => rfl
  | (name, value) :: rest =>
    obtain ⟨hvalue, hrest⟩ := List.forall_mem_cons.1 h
    rw [memberForms, evaluateMembers?, evaluate?_form value hvalue,
      evaluateMembers?_memberForms rest hrest]
    rfl

end

mutual

theorem sorted_eq_self (json : Json) (h : json.Ordered) : json.sorted = json := by
  match json with
  | .null | .bool _ | .number _ | .string _ => rfl
  | .array items => rw [sorted, sortedItems_eq_self items (ordered_array.1 h)]
  | .object members =>
    obtain ⟨hmembers, hvalues⟩ := ordered_object.1 h
    have hsame : Members.ofList members = members :=
      (Members.ordered_ofList members).ext hmembers
        (Members.lookup_ofList_of_nodup hmembers.nodup_names)
    rw [sorted, sortedMembers_eq_self members hvalues, hsame]

theorem sortedItems_eq_self (items : List Json) (h : ∀ item ∈ items, item.Ordered) :
    sortedItems items = items := by
  match items with
  | [] => rfl
  | item :: rest =>
    obtain ⟨hitem, hrest⟩ := List.forall_mem_cons.1 h
    rw [sortedItems, sorted_eq_self item hitem, sortedItems_eq_self rest hrest]

theorem sortedMembers_eq_self (members : List (String × Json))
    (h : ∀ member ∈ members, member.2.Ordered) : sortedMembers members = members := by
  match members with
  | [] => rfl
  | (name, value) :: rest =>
    obtain ⟨hvalue, hrest⟩ := List.forall_mem_cons.1 h
    rw [sortedMembers, sorted_eq_self value hvalue, sortedMembers_eq_self rest hrest]

end

theorem writtenAs_compact {json : Json} (hnumbers : json.Numbers Number.ReadsBack)
    (hdepth : json.depth ≤ nestingLimit) : json.form.WrittenAs json.compact where
  texts := texts_compact json hnumbers
  depth := by rwa [depth_form]

/-- **Reading what was printed gives back the value**, with the members of objects in order. -/
theorem parse?_compact {json : Json} (hnumbers : json.Numbers Number.ReadsBack)
    (hdepth : json.depth ≤ nestingLimit) : Json.parse? json.compact = some json.sorted := by
  rw [parse?, (writtenAs_compact hnumbers hdepth).parse?_eq, Option.bind_some,
    evaluate?_form json hnumbers]

end ElmWire.Json
