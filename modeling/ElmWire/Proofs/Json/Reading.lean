import ElmWire.Json.Form
import ElmWire.Proofs.Json.Scanning

/-!
# How forms are written

`Form.tokens` are the tokens of a form.  There is one way to write a form with tokens, and all the
freedom in writing it is in how the tokens are written.

* `Form.run?_tokens` — **the reading machine delivers the form whose tokens it reads**, to whatever
  containers are still open, as long as that is not too deep.
* `Form.WrittenAs` — a text is JSON of a form.  `Form.WrittenAs.parse?_eq`: with the scanner in
  front of the machine, such a text is read as its form.
-/

set_option autoImplicit false
namespace ElmWire.Json

/-! ## The tokens of a form -/

/-- The tokens of the entries of a container, with commas between them. -/
def separated : List (List Token) → List Token
  | [] => []
  | first :: rest => first ++ rest.flatMap (.comma :: ·)

mutual

/-- The tokens that a form is written with. -/
def Form.tokens : Form → List Token
  | .null => [.null]
  | .bool b => [.bool b]
  | .number l => [.number l]
  | .string s => [.string s]
  | .array items => .openBracket :: (separated (itemTokens items) ++ [.closeBracket])
  | .object members => .openBrace :: (separated (memberTokens members) ++ [.closeBrace])
  | .tooDeep => []

/-- The tokens of each item of an array. -/
def itemTokens : List Form → List (List Token)
  | [] => []
  | form :: rest => form.tokens :: itemTokens rest

/-- The tokens of each member of an object. -/
def memberTokens : List (Option String × Form) → List (List Token)
  | [] => []
  | (name, form) :: rest => (.string name :: .colon :: form.tokens) :: memberTokens rest

end

/-! ## Words are kept apart -/

theorem Token.isChain_append {first second : List Token} (hfirst : first.IsChain Token.Apart)
    (hsecond : second.IsChain Token.Apart) (hhead : ∀ token ∈ second.head?, token.isWord = false) :
    (first ++ second).IsChain Token.Apart :=
  List.isChain_append.2 ⟨hfirst, hsecond, fun _ _ token htoken => .inr (hhead token htoken)⟩

theorem Token.isChain_cons {token : Token} {tokens : List Token} (htoken : token.isWord = false)
    (h : tokens.IsChain Token.Apart) : (token :: tokens).IsChain Token.Apart :=
  List.isChain_cons.2 ⟨fun _ _ => .inl htoken, h⟩

/-- The entries of a container and its closing bracket. -/
theorem isChain_separated {entries : List (List Token)} {closing : Token}
    (hclosing : closing.isWord = false) (h : ∀ entry ∈ entries, entry.IsChain Token.Apart) :
    (separated entries ++ [closing]).IsChain Token.Apart := by
  have hrest : ∀ {entries : List (List Token)}, (∀ entry ∈ entries, entry.IsChain Token.Apart) →
      (entries.flatMap (.comma :: ·) ++ [closing]).IsChain Token.Apart ∧
        ∀ token ∈ (entries.flatMap (.comma :: ·) ++ [closing]).head?, token.isWord = false := by
    intro entries h
    induction entries with
    | nil => exact ⟨List.isChain_singleton _, by simp [hclosing]⟩
    | cons entry entries ih =>
      obtain ⟨hentry, h⟩ := List.forall_mem_cons.1 h
      obtain ⟨hchain, hhead⟩ := ih h
      rw [List.flatMap_cons, List.cons_append, List.cons_append, List.append_assoc]
      exact ⟨Token.isChain_cons rfl (Token.isChain_append hentry hchain hhead),
        by simp [Token.isWord]⟩
  cases entries with
  | nil => exact List.isChain_singleton _
  | cons entry entries =>
    obtain ⟨hentry, h⟩ := List.forall_mem_cons.1 h
    obtain ⟨hchain, hhead⟩ := hrest h
    rw [separated, List.append_assoc]
    exact Token.isChain_append hentry hchain hhead

mutual

theorem Form.isChain_tokens : ∀ form : Form, form.tokens.IsChain Token.Apart
  | .null | .bool _ | .number _ | .string _ => List.isChain_singleton _
  | .array items => Token.isChain_cons rfl (isChain_separated rfl (isChain_itemTokens items))
  | .object members => Token.isChain_cons rfl (isChain_separated rfl (isChain_memberTokens members))
  | .tooDeep => List.isChain_nil

theorem isChain_itemTokens : ∀ items : List Form, ∀ entry ∈ itemTokens items,
    entry.IsChain Token.Apart
  | [] => by simp [itemTokens]
  | form :: rest => List.forall_mem_cons.2 ⟨form.isChain_tokens, isChain_itemTokens rest⟩

theorem isChain_memberTokens : ∀ members : List (Option String × Form),
    ∀ entry ∈ memberTokens members, entry.IsChain Token.Apart
  | [] => by simp [memberTokens]
  | (_, form) :: rest => List.forall_mem_cons.2
      ⟨Token.isChain_cons rfl (Token.isChain_cons rfl form.isChain_tokens),
        isChain_memberTokens rest⟩

end

/-! ## Reading the tokens of a form -/

namespace Reading

theorem run?_cons {r next : Reading} {token : Token} (h : r.step? token = some next)
    (rest : List Token) : r.run? (token :: rest) = next.run? rest := by
  rw [run?, h]

/-- The machine takes a value next, whether or not the container may be closed instead. -/
inductive TakesValue (stack : List Frame) : Reading → Prop
  | value : TakesValue stack ⟨stack, .value⟩
  | valueOrClose : TakesValue stack ⟨stack, .valueOrClose⟩

theorem TakesValue.run?_cons {stack : List Frame} {r next : Reading} {token : Token}
    (h : TakesValue stack r) (hvalue : value? stack token = some next) (rest : List Token) :
    r.run? (token :: rest) = next.run? rest := by
  refine Reading.run?_cons ?_ rest
  cases h with
  | value => exact hvalue
  | valueOrClose => exact Option.or_eq_some_iff.2 (.inl hvalue)

theorem closed_of_le {depth : Nat} (h : depth ≤ nestingLimit) (form : Form) :
    closed depth form = form := if_pos h

theorem close?_array {stack : List Frame} (hdepth : stack.length + 1 ≤ nestingLimit)
    (items : List Form) : close? (.array items :: stack) .closeBracket =
      some (deliver (.array items.reverse) stack) := by
  rw [close?, closed_of_le (by simpa using hdepth)]

theorem close?_object {stack : List Frame} (hdepth : stack.length + 1 ≤ nestingLimit)
    (members : List (Option String × Form)) (name : Option String) :
    close? (.object members name :: stack) .closeBrace =
      some (deliver (.object members.reverse) stack) := by
  rw [close?, closed_of_le (by simpa using hdepth)]

end Reading

open Reading

mutual

/-- **The reading machine delivers the form whose tokens it reads.** -/
theorem Form.run?_tokens (form : Form) {stack : List Frame}
    (hdepth : stack.length + form.depth ≤ nestingLimit) {r : Reading} (hr : TakesValue stack r)
    (rest : List Token) : r.run? (form.tokens ++ rest) = (deliver form stack).run? rest := by
  match form with
  | .null | .bool _ | .number _ | .string _ => exact hr.run?_cons rfl rest
  | .array [] =>
    have hclose : step? ⟨.array [] :: stack, .valueOrClose⟩ .closeBracket = _ :=
      close?_array hdepth []
    rw [Form.tokens, List.cons_append, hr.run?_cons rfl]
    exact run?_cons hclose rest
  | .array (form :: items) =>
    rw [Form.depth, depthItems] at hdepth
    rw [Form.tokens, List.cons_append, hr.run?_cons rfl, itemTokens, separated, List.append_assoc,
      List.append_assoc, form.run?_tokens (by simp; omega) .valueOrClose]
    exact run?_itemTokens items (by omega) [form] rest
  | .object [] =>
    have hclose : step? ⟨.object [] none :: stack, .nameOrClose⟩ .closeBrace = _ :=
      close?_object hdepth [] none
    rw [Form.tokens, List.cons_append, hr.run?_cons rfl]
    exact run?_cons hclose rest
  | .object ((name, form) :: members) =>
    rw [Form.depth, depthMembers] at hdepth
    rw [Form.tokens, List.cons_append, hr.run?_cons rfl, memberTokens, separated, List.append_assoc,
      List.append_assoc]
    show Reading.run? ⟨.object [] name :: stack, .value⟩ (form.tokens ++ _) = _
    rw [form.run?_tokens (by simp; omega) .value]
    exact run?_memberTokens members (by omega) [(name, form)] name rest
  | .tooDeep =>
    rw [Form.depth] at hdepth
    omega

/-- Further items of an array, up to its end. -/
theorem run?_itemTokens (items : List Form) {stack : List Frame}
    (hdepth : stack.length + 1 + depthItems items ≤ nestingLimit)
    (done : List Form) (rest : List Token) :
    run? ⟨.array done :: stack, .separator⟩
        ((itemTokens items).flatMap (.comma :: ·) ++ ([.closeBracket] ++ rest)) =
      (deliver (.array (done.reverse ++ items)) stack).run? rest := by
  match items with
  | [] =>
    have hclose : step? ⟨.array done :: stack, .separator⟩ .closeBracket = _ :=
      close?_array hdepth done
    rw [List.append_nil]
    exact run?_cons hclose rest
  | form :: items =>
    rw [depthItems] at hdepth
    rw [itemTokens, List.flatMap_cons, List.cons_append, List.cons_append, List.append_assoc]
    show run? ⟨.array done :: stack, .value⟩ (form.tokens ++ _) = _
    rw [form.run?_tokens (by simp; omega) .value]
    rw [List.append_cons, ← List.reverse_cons]
    exact run?_itemTokens items (by omega) (form :: done) rest

/-- Further members of an object, up to its end. -/
theorem run?_memberTokens (members : List (Option String × Form)) {stack : List Frame}
    (hdepth : stack.length + 1 + depthMembers members ≤ nestingLimit)
    (done : List (Option String × Form)) (last : Option String) (rest : List Token) :
    run? ⟨.object done last :: stack, .separator⟩
        ((memberTokens members).flatMap (.comma :: ·) ++ ([.closeBrace] ++ rest)) =
      (deliver (.object (done.reverse ++ members)) stack).run? rest := by
  match members with
  | [] =>
    have hclose : step? ⟨.object done last :: stack, .separator⟩ .closeBrace = _ :=
      close?_object hdepth done last
    rw [List.append_nil]
    exact run?_cons hclose rest
  | (name, form) :: members =>
    rw [depthMembers] at hdepth
    rw [memberTokens, List.flatMap_cons, List.cons_append, List.cons_append, List.append_assoc]
    show run? ⟨.object done name :: stack, .value⟩ (form.tokens ++ _) = _
    rw [form.run?_tokens (by simp; omega) .value]
    rw [List.append_cons, ← List.reverse_cons]
    exact run?_memberTokens members (by omega) ((name, form) :: done) name rest

end

/-- The text is JSON, and this is its form: it is spelled with the tokens of the form, and it is not
nested too deep. -/
structure Form.WrittenAs (form : Form) (text : String) : Prop where
  texts : Token.Texts form.tokens text.toList
  depth : form.depth ≤ nestingLimit

/-- **A text is read as its form**, however it is spelled. -/
theorem Form.WrittenAs.parse?_eq {form : Form} {text : String} (h : form.WrittenAs text) :
    Form.parse? text = some form := by
  have hscan : Token.scan? text.toList = some form.tokens :=
    Token.scan?_of_texts h.texts form.isChain_tokens
  have hrun : run? ⟨[], .value⟩ form.tokens = some ⟨[], .nothing form⟩ := by
    have hempty : ([] : List Frame).length + form.depth ≤ nestingLimit := by simpa using h.depth
    rw [← List.append_nil form.tokens, form.run?_tokens hempty .value]
    rfl
  rw [Form.parse?, hscan]
  simp [hrun]

end ElmWire.Json
