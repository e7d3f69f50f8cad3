import ElmWire.Proofs.Template

/-!
# Filling a template is substitution

A template is text with slots in it, `l₀ {{k₁}} l₁ … {{kₙ}} lₙ`.  Two slots never overlap, since the
inside of a slot has no braces; so it does not matter where one starts to look for them, and a
template can be taken apart in one way only, whatever braces stand in its texts or at their ends.

* `Parts` — a template that is taken apart: names of slots, and texts in which no slot stands.
* `tokens_text` — **the scan of a template finds exactly its parts**.  So every text has parts
  (`exists_parts`), and no two (`text_injective`).
* `fill_text` — **filling goes from slot to slot** and copies everything else.
* `fill_simultaneous` — the result is the texts with the values between them, or else names the
  first slot without a value.
-/

set_option autoImplicit false
namespace ElmWire.Template

/-! ## Texts with slots between them -/

/-- A name that a slot may have. -/
def IsName (name : List Char) : Prop := name ≠ [] ∧ ∀ c ∈ name, 'a' ≤ c ∧ c ≤ 'z' ∨ c = '_'

theorem isNameChar_iff {c : Char} : isNameChar c = true ↔ 'a' ≤ c ∧ c ≤ 'z' ∨ c = '_' := by
  have hlower : c.isLower = (decide ('a' ≤ c) && decide (c ≤ 'z')) := rfl
  simp [isNameChar, hlower]

theorem isName_iff {name : List Char} :
    IsName name ↔ name ≠ [] ∧ ∀ c ∈ name, isNameChar c = true := by
  simp only [IsName, isNameChar_iff]

instance (name : List Char) : Decidable (IsName name) :=
  decidable_of_iff (name ≠ [] ∧ name.all isNameChar = true) (by rw [isName_iff, List.all_eq_true])

/-- No slot stands anywhere in the text. -/
def Plain (text : List Char) : Prop := ∀ name, IsName name → ¬ slotText name <:+: text

/-- A slot, and the text behind it up to the next one. -/
@[ext] structure Segment where
  name : List Char
  literal : List Char
  isName : IsName name
  plain : Plain literal

/-- A template that is taken apart: a text, and then slots with a text behind each. -/
@[ext] structure Parts where
  opening : List Char
  segments : List Segment
  plain : Plain opening

def Segment.text (s : Segment) : List Char := slotText s.name ++ s.literal

def Segment.tokens (s : Segment) : List Token := .slot s.name :: s.literal.map .char

namespace Parts

/-- The template that has the parts. -/
def text (parts : Parts) : List Char := parts.opening ++ parts.segments.flatMap Segment.text

def tokens (parts : Parts) : List Token :=
  parts.opening.map .char ++ parts.segments.flatMap Segment.tokens

/-- The texts with a value in the place of each slot. -/
def filled (parts : Parts) (values : List String) : String :=
  String.ofList parts.opening ++
    String.join (parts.segments.zipWith (fun s value => value ++ String.ofList s.literal) values)

end Parts

/-! ## The scan stays inside of the parts -/

theorem Plain.of_infix {text part : List Char} (h : Plain text) (hpart : part <:+: text) :
    Plain part := fun name hname hslot => h name hname (hslot.trans hpart)

theorem Plain.tail {c : Char} {text : List Char} (h : Plain (c :: text)) : Plain text :=
  h.of_infix (List.suffix_cons c text).isInfix

/-- What may stand behind a text: nothing, or a slot. -/
def Opens (rest : List Char) : Prop := rest = [] ∨ ∃ more, rest = '\x7b' :: '\x7b' :: more

theorem opens_segments (segments : List Segment) : Opens (segments.flatMap Segment.text) := by
  cases segments with
  | nil => exact .inl rfl
  | cons s rest => exact .inr ⟨_, rfl⟩

theorem slotAt?_eq_some_iff_isName {text name : List Char} :
    slotAt? text = some name ↔ IsName name ∧ ∃ rest, text = slotText name ++ rest := by
  rw [slotAt?_eq_some_iff, isName_iff, and_assoc]

/-- Behind the opening braces of a slot there is no opening brace. -/
theorem IsName.not_mem {name : List Char} (h : IsName name) :
    '\x7b' ∉ name ++ ['\x7d', '\x7d'] := by
  intro hmem
  rcases List.mem_append.1 hmem with hmem | hmem
  · exact absurd (h.2 _ hmem) (by decide)
  · exact absurd hmem (by decide)

/-- An opening brace inside of a slot is its second character. -/
theorem IsName.eq_of_slotText_eq {name before after : List Char} {c : Char} (h : IsName name)
    (heq : slotText name = c :: before ++ '\x7b' :: after) : after = name ++ ['\x7d', '\x7d'] := by
  obtain ⟨-, heq⟩ := List.cons.inj heq
  cases before with
  | nil => exact (List.cons.inj heq).2.symm
  | cons second before =>
    have hinside : name ++ ['\x7d', '\x7d'] = before ++ '\x7b' :: after := (List.cons.inj heq).2
    exact absurd (hinside ▸ by simp) h.not_mem

/-- **No slot reaches out of a text.**  It would have to go on with the braces of the next slot, but
behind its own braces comes its name. -/
theorem slotAt?_append_opens {text rest : List Char} (hne : text ≠ []) (h : Plain text)
    (hrest : Opens rest) : slotAt? (text ++ rest) = none := by
  refine Option.eq_none_iff_forall_ne_some.2 fun name hslot => ?_
  obtain ⟨hname, after, htext⟩ := slotAt?_eq_some_iff_isName.1 hslot
  obtain ⟨more, hmore, hafter⟩ | ⟨more, rfl, -⟩ := List.append_eq_append_iff.1 htext
  · -- The text ends inside of the slot, which goes on with `more`.
    cases more with
    | nil => exact h name hname (hmore ▸ by simp)
    | cons c more =>
      obtain rfl | ⟨behind, rfl⟩ := hrest
      · cases hafter
      · obtain ⟨rfl, hbehind⟩ := List.cons.inj hafter
        obtain ⟨first, text, rfl⟩ := List.exists_cons_of_ne_nil hne
        obtain rfl := hname.eq_of_slotText_eq hmore
        obtain ⟨d, others, rfl⟩ := List.exists_cons_of_ne_nil hname.1
        obtain ⟨rfl, -⟩ := List.cons.inj hbehind
        exact hname.not_mem (by simp)
  · exact h name hname (List.prefix_append ..).isInfix

/-- The scan passes through a text. -/
theorem tokens_append_opens {text rest : List Char} (h : Plain text) (hrest : Opens rest) :
    tokens (text ++ rest) = text.map .char ++ tokens rest := by
  induction text with
  | nil => rfl
  | cons c text ih =>
    have hslot := slotAt?_append_opens (List.cons_ne_nil c text) h hrest
    rw [List.cons_append] at hslot ⊢
    rw [tokens, tokensAfter, hslot, List.map_cons, List.cons_append, ← ih h.tail]
    rfl

theorem tokensAfter_append_of_length_eq {skipped : List Char} {skip : Nat}
    (h : skipped.length = skip) (rest : List Char) :
    tokensAfter skip (skipped ++ rest) = tokens rest := by
  induction skipped generalizing skip with
  | nil =>
    subst h
    rfl
  | cons c skipped ih =>
    subst h
    exact ih rfl

/-- The scan finds a slot, and goes on behind it. -/
theorem tokens_slotText_append {name : List Char} (h : IsName name) (rest : List Char) :
    tokens (slotText name ++ rest) = .slot name :: tokens rest := by
  have hslot : slotAt? (slotText name ++ rest) = some name :=
    slotAt?_eq_some_iff_isName.2 ⟨h, rest, rfl⟩
  rw [slotText, List.cons_append, List.cons_append] at hslot ⊢
  rw [tokens, tokensAfter, hslot]
  exact congrArg _ (tokensAfter_append_of_length_eq (by simp) rest)

theorem tokens_segments (segments : List Segment) :
    tokens (segments.flatMap Segment.text) = segments.flatMap Segment.tokens := by
  induction segments with
  | nil => rfl
  | cons s rest ih =>
    rw [List.flatMap_cons, List.flatMap_cons, Segment.text, List.append_assoc,
      tokens_slotText_append s.isName, tokens_append_opens s.plain (opens_segments rest), ih]
    rfl

/-- **The scan of a template finds exactly its parts.** -/
theorem tokens_text (parts : Parts) : tokens parts.text = parts.tokens := by
  rw [Parts.text, tokens_append_opens parts.plain (opens_segments _), tokens_segments]
  rfl

/-! ## The parts of a template -/

/-- The texts and the slots among some tokens. -/
def cut : List Token → List Char × List (List Char × List Char)
  | [] => ([], [])
  | .char c :: rest => (c :: (cut rest).1, (cut rest).2)
  | .slot name :: rest => ([], (name, (cut rest).1) :: (cut rest).2)

theorem cut_append_chars (text : List Char) (rest : List Token) :
    cut (text.map .char ++ rest) = (text ++ (cut rest).1, (cut rest).2) := by
  induction text with
  | nil => rfl
  | cons c text ih => rw [List.map_cons, List.cons_append, cut, ih]; rfl

theorem cut_segments (segments : List Segment) :
    cut (segments.flatMap Segment.tokens) = ([], segments.map fun s => (s.name, s.literal)) := by
  induction segments with
  | nil => rfl
  | cons s rest ih =>
    rw [List.flatMap_cons, Segment.tokens, List.cons_append, cut, cut_append_chars, ih]
    simp

/-- The parts can be read off the tokens. -/
theorem cut_tokens (parts : Parts) :
    cut parts.tokens = (parts.opening, parts.segments.map fun s => (s.name, s.literal)) := by
  rw [Parts.tokens, cut_append_chars, cut_segments, List.append_nil]

theorem segment_injective :
    Function.Injective fun s : Segment => (s.name, s.literal) := by
  intro s t h
  exact Segment.ext (congrArg Prod.fst h) (congrArg Prod.snd h)

/-- **A template has no other parts.** -/
theorem text_injective : Function.Injective Parts.text := by
  intro parts others h
  have htokens : parts.tokens = others.tokens := by rw [← tokens_text, h, tokens_text]
  have hcut := congrArg cut htokens
  rw [cut_tokens, cut_tokens] at hcut
  exact Parts.ext (congrArg Prod.fst hcut) (segment_injective.list_map (congrArg Prod.snd hcut))

theorem plain_nil : Plain [] := by
  intro name _ hslot
  cases List.infix_nil.1 hslot

theorem Plain.cons {c : Char} {text rest : List Char} (h : Plain text)
    (hslot : slotAt? (c :: text ++ rest) = none) : Plain (c :: text) := by
  intro name hname hinfix
  rcases List.infix_cons_iff.1 hinfix with hprefix | hinfix
  · obtain ⟨more, hmore⟩ := hprefix
    have hfound : slotAt? (c :: text ++ rest) = some name :=
      slotAt?_eq_some_iff_isName.2 ⟨hname, more ++ rest, by rw [← hmore, List.append_assoc]⟩
    rw [hslot] at hfound
    cases hfound
  · exact h name hname hinfix

/-- **Every text is a template.**  What is put in front of a template either is a slot or belongs to
the text that the template starts with. -/
theorem exists_parts (text : List Char) : ∃ parts : Parts, parts.text = text := by
  -- On the length, since a slot takes up several characters.
  induction hlength : text.length using Nat.strong_induction_on generalizing text with
  | h n ih =>
    cases text with
    | nil => exact ⟨⟨[], [], plain_nil⟩, rfl⟩
    | cons c text =>
      cases hslot : slotAt? (c :: text) with
      | some name =>
        obtain ⟨hname, rest, htext⟩ := slotAt?_eq_some_iff_isName.1 hslot
        have hshorter : rest.length < n := by
          rw [← hlength, htext, List.length_append, length_slotText]
          omega
        obtain ⟨parts, rfl⟩ := ih _ hshorter rest rfl
        refine ⟨⟨[], ⟨name, parts.opening, hname, parts.plain⟩ :: parts.segments, plain_nil⟩, ?_⟩
        simp [htext, Parts.text, Segment.text]
      | none =>
        obtain ⟨parts, rfl⟩ := ih _ (by rw [← hlength]; exact Nat.lt_succ_self _) text rfl
        exact ⟨⟨c :: parts.opening, parts.segments, parts.plain.cons hslot⟩, rfl⟩

/-- A text is plain exactly if the scan finds no slot. -/
theorem plain_iff {text : List Char} : Plain text ↔ slots text = [] := by
  constructor
  · intro h
    have htokens : tokens text = text.map .char := by
      rw [← List.append_nil text, tokens_append_opens h (.inl rfl), List.append_nil]
      exact List.append_nil _
    rw [slots, htokens, List.filterMap_eq_nil_iff]
    exact List.forall_mem_map.2 fun _ _ => rfl
  · intro h
    obtain ⟨parts, rfl⟩ := exists_parts text
    rw [slots, tokens_text, Parts.tokens, List.filterMap_append, List.append_eq_nil_iff] at h
    cases hsegments : parts.segments with
    | nil =>
      rw [Parts.text, hsegments, List.flatMap_nil, List.append_nil]
      exact parts.plain
    | cons s rest =>
      rw [hsegments] at h
      cases h.2

instance (text : List Char) : Decidable (Plain text) := decidable_of_iff _ plain_iff.symm

-- With one more pair of braces around it, a slot stands between two texts.
example : (⟨['\x7b'], [⟨['x'], ['\x7d'], by decide, by decide⟩], by decide⟩ : Parts).text =
    "\x7b\x7b\x7bx\x7d\x7d\x7d".toList := by decide

/-! ## Filling the slots -/

section

variable {ε α : Type} {f : α → Except ε String}

/-- The texts of some items, put together. -/
def joinM (f : α → Except ε String) (items : List α) : Except ε String :=
  (items.mapM f).map String.join

theorem joinM_cons (a : α) (items : List α) :
    joinM f (a :: items) = (do return (← f a) ++ (← joinM f items)) := by
  rw [joinM, joinM, List.mapM_cons]
  cases f a with
  | error e => rfl
  | ok text =>
    cases items.mapM f with
    | error e => rfl
    | ok texts => exact congrArg Except.ok String.join_cons

theorem joinM_append (items others : List α) :
    joinM f (items ++ others) = (do return (← joinM f items) ++ (← joinM f others)) := by
  rw [joinM, joinM, joinM, List.mapM_append]
  cases items.mapM f with
  | error e => rfl
  | ok texts =>
    cases others.mapM f with
    | error e => rfl
    | ok texts => exact congrArg Except.ok String.join_append

end

/-- The value of the slot, and the text behind it. -/
def Segment.fill (values : List (String × String)) (s : Segment) : Except Unfilled String :=
  match values.lookup (String.ofList s.name) with
  | some value => .ok (value ++ String.ofList s.literal)
  | none => .error ⟨String.ofList s.name⟩

section

variable {values : List (String × String)}

theorem joinM_chars (text : List Char) :
    joinM (textOf values) (text.map .char) = .ok (String.ofList text) := by
  have hchars : (text.map Token.char).mapM (textOf values) = .ok (text.map Char.toString) :=
    mapM_map_eq_ok fun _ _ => rfl
  rw [joinM, hchars]
  refine congrArg Except.ok (String.toList_inj.1 ?_)
  simp [String.toList_join, List.flatMap_map]

theorem joinM_segment (s : Segment) : joinM (textOf values) s.tokens = s.fill values := by
  rw [Segment.tokens, joinM_cons, joinM_chars, textOf, Segment.fill]
  cases values.lookup (String.ofList s.name) <;> rfl

theorem joinM_segments (segments : List Segment) :
    joinM (textOf values) (segments.flatMap Segment.tokens) =
      joinM (Segment.fill values) segments := by
  induction segments with
  | nil => rfl
  | cons s rest ih => rw [List.flatMap_cons, joinM_append, joinM_segment, ih, joinM_cons]

/-- **Filling a template goes from slot to slot** and copies everything else. -/
theorem fill_text (parts : Parts) :
    fill (String.ofList parts.text) values =
      (parts.segments.mapM (Segment.fill values)).map fun texts =>
        String.ofList parts.opening ++ String.join texts := by
  have htokens : fill (String.ofList parts.text) values = joinM (textOf values) parts.tokens := by
    rw [← tokens_text, fill, String.toList_ofList, joinM]
  rw [htokens, Parts.tokens, joinM_append, joinM_chars, joinM_segments, joinM]
  cases parts.segments.mapM (Segment.fill values) <;> rfl

theorem Segment.fill_eq_ok_iff {s : Segment} {text : String} :
    s.fill values = .ok text ↔
      ∃ value, values.lookup (String.ofList s.name) = some value ∧
        text = value ++ String.ofList s.literal := by
  rw [Segment.fill]
  cases values.lookup (String.ofList s.name) with
  | none => simp
  | some value => simp [eq_comm]

theorem Segment.reason?_fill_eq_some_iff {s : Segment} {unfilled : Unfilled} :
    reason? (s.fill values) = some unfilled ↔
      values.lookup (String.ofList s.name) = none ∧ unfilled = ⟨String.ofList s.name⟩ := by
  rw [Segment.fill]
  cases values.lookup (String.ofList s.name) with
  | none => simp [reason?, eq_comm]
  | some value => simp [reason?]

theorem Segment.reason?_fill_eq_none_iff {s : Segment} :
    reason? (s.fill values) = none ↔
      ∃ value, values.lookup (String.ofList s.name) = some value := by
  rw [Segment.fill]
  cases values.lookup (String.ofList s.name) <;> simp [reason?]

/-- All slots can be filled exactly if there is a value for each of them. -/
theorem mapM_fill_eq_ok_iff {segments : List Segment} {texts : List String} :
    segments.mapM (Segment.fill values) = .ok texts ↔
      ∃ vs, List.Forall₂ (fun s value => values.lookup (String.ofList s.name) = some value)
          segments vs ∧
        texts = segments.zipWith (fun s value => value ++ String.ofList s.literal) vs := by
  rw [mapM_eq_ok_iff]
  induction segments generalizing texts with
  | nil => simp
  | cons s rest ih =>
    rw [List.forall₂_cons_left_iff]
    constructor
    · rintro ⟨text, others, htext, hothers, rfl⟩
      obtain ⟨value, hvalue, rfl⟩ := Segment.fill_eq_ok_iff.1 htext
      obtain ⟨vs, hvs, rfl⟩ := ih.1 hothers
      exact ⟨value :: vs, .cons hvalue hvs, rfl⟩
    · rintro ⟨_, hvs, rfl⟩
      obtain ⟨value, vs, hvalue, hrest, rfl⟩ := List.forall₂_cons_left_iff.1 hvs
      exact ⟨_, _, Segment.fill_eq_ok_iff.2 ⟨value, hvalue, rfl⟩, ih.2 ⟨vs, hrest, rfl⟩, rfl⟩

theorem fill_eq_ok_iff {parts : Parts} {text : String} :
    fill (String.ofList parts.text) values = .ok text ↔
      ∃ vs, List.Forall₂ (fun s value => values.lookup (String.ofList s.name) = some value)
          parts.segments vs ∧ text = parts.filled vs := by
  rw [fill_text, map_eq_ok_iff]
  constructor
  · rintro ⟨_, htexts, rfl⟩
    obtain ⟨vs, hvs, rfl⟩ := mapM_fill_eq_ok_iff.1 htexts
    exact ⟨vs, hvs, rfl⟩
  · rintro ⟨vs, hvs, rfl⟩
    exact ⟨_, mapM_fill_eq_ok_iff.2 ⟨vs, hvs, rfl⟩, rfl⟩

theorem fill_eq_error_iff {parts : Parts} {unfilled : Unfilled} :
    fill (String.ofList parts.text) values = .error unfilled ↔
      ∃ before s after, parts.segments = before ++ s :: after ∧
        (∀ earlier ∈ before, ∃ value, values.lookup (String.ofList earlier.name) = some value) ∧
        values.lookup (String.ofList s.name) = none ∧ unfilled = ⟨String.ofList s.name⟩ := by
  rw [← reason?_eq_some_iff, fill_text, reason?_map, reason?_mapM, List.findSome?_eq_some_iff]
  simp only [Segment.reason?_fill_eq_some_iff, Segment.reason?_fill_eq_none_iff]
  constructor
  · rintro ⟨before, s, after, hsegments, hs, hbefore⟩
    exact ⟨before, s, after, hsegments, hbefore, hs⟩
  · rintro ⟨before, s, after, hsegments, hbefore, hs⟩
    exact ⟨before, s, after, hsegments, hs, hbefore⟩

end

/-- The text of the error has the slot as it is written. -/
theorem message_unfilled (name : List Char) :
    (Unfilled.mk (String.ofList name)).message =
      "Template error: no value for placeholder " ++ String.ofList (slotText name) := by
  have hopen : "Template error: no value for placeholder \x7b\x7b" =
      "Template error: no value for placeholder " ++ "\x7b\x7b" := by decide
  have hslot : String.ofList (slotText name) = "\x7b\x7b" ++ String.ofList name ++ "\x7d\x7d" :=
    String.toList_inj.1 (by simp [slotText])
  have hassoc (a b c d : String) : a ++ b ++ c ++ d = a ++ (b ++ c ++ d) := by
    rw [String.append_assoc, String.append_assoc, String.append_assoc]
  calc (Unfilled.mk (String.ofList name)).message
      = "Template error: no value for placeholder " ++ "\x7b\x7b" ++ String.ofList name ++
          "\x7d\x7d" := congrArg (fun stem => stem ++ String.ofList name ++ "\x7d\x7d") hopen
    _ = "Template error: no value for placeholder " ++
          ("\x7b\x7b" ++ String.ofList name ++ "\x7d\x7d") := hassoc _ _ _ _
    _ = _ := congrArg ("Template error: no value for placeholder " ++ ·) hslot.symm

/-- **Filling a template is simultaneous substitution.**  A template can be taken apart in exactly
one way into texts and slots, and the scan finds these.  If every slot has a value, the first one
listed stands in its place, as it is; otherwise the first slot without a value is named. -/
theorem fill_simultaneous :
    (∀ template : String, ∃! parts : Parts, String.ofList parts.text = template) ∧
    ∀ parts : Parts, tokens parts.text = parts.tokens ∧
      ∀ values : List (String × String),
        (∀ text, fill (String.ofList parts.text) values = .ok text ↔
          ∃ vs, List.Forall₂ (fun s value => values.lookup (String.ofList s.name) = some value)
            parts.segments vs ∧ text = parts.filled vs) ∧
        ∀ unfilled, fill (String.ofList parts.text) values = .error unfilled ↔
          ∃ before s after, parts.segments = before ++ s :: after ∧
            (∀ earlier ∈ before, ∃ value,
              values.lookup (String.ofList earlier.name) = some value) ∧
            values.lookup (String.ofList s.name) = none ∧
            unfilled = ⟨String.ofList s.name⟩ ∧
            unfilled.message =
              "Template error: no value for placeholder " ++ String.ofList (slotText s.name) := by
  refine ⟨fun template => ?_, fun parts => ⟨tokens_text parts, fun values =>
    ⟨fun text => fill_eq_ok_iff, fun unfilled => fill_eq_error_iff.trans ?_⟩⟩⟩
  · obtain ⟨parts, hparts⟩ := exists_parts template.toList
    have htemplate : String.ofList parts.text = template := by rw [hparts, String.ofList_toList]
    refine ⟨parts, htemplate, fun others hothers => ?_⟩
    exact text_injective (String.ofList_injective (hothers.trans htemplate.symm))
  · constructor
    · rintro ⟨before, s, after, hsegments, hbefore, hs, rfl⟩
      exact ⟨before, s, after, hsegments, hbefore, hs, rfl, message_unfilled s.name⟩
    · rintro ⟨before, s, after, hsegments, hbefore, hs, hunfilled, -⟩
      exact ⟨before, s, after, hsegments, hbefore, hs, hunfilled⟩

end ElmWire.Template
