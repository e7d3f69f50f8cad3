import ElmWire.Proofs.Failing
import ElmWire.Proofs.Members
import ElmWire.Template
import Mathlib.Data.List.TakeWhile

/-!
# Slots of a template

* `slotAt?_eq_some_iff` — what a slot is: double braces around a name.
* `slots_append_cons` — no slot crosses a character that stands in none, so **the slots of a text
  are those of its pieces**.
* `exists_fill` — a template is filled if every slot has a value.
-/

set_option autoImplicit false
namespace ElmWire.Template

variable {text before after name : List Char} {c : Char}

/-! ## What a slot is -/

/-- The text of a slot. -/
def slotText (name : List Char) : List Char := '\x7b' :: '\x7b' :: name ++ ['\x7d', '\x7d']

/-- **A slot is a name between double braces.** -/
theorem slotAt?_eq_some_iff : slotAt? text = some name ↔
    name ≠ [] ∧ (∀ c ∈ name, isNameChar c = true) ∧ ∃ rest, text = slotText name ++ rest := by
  constructor
  · intro h
    rw [slotAt?.eq_def] at h
    split at h
    · rename_i text
      dsimp only at h
      split at h
      · rename_i c cs rest hname hrest
        obtain rfl := Option.some.inj h
        refine ⟨hname ▸ List.cons_ne_nil c cs, fun c hc => List.mem_takeWhile_imp hc, rest, ?_⟩
        rw [slotText, List.append_assoc]
        exact congrArg (fun text => '\x7b' :: '\x7b' :: text)
          ((List.takeWhile_append_dropWhile ..).symm.trans (congrArg _ hrest))
      · cases h
    · cases h
  · rintro ⟨hne, hname, rest, rfl⟩
    obtain ⟨c, cs, rfl⟩ := List.exists_cons_of_ne_nil hne
    have hclose : isNameChar '\x7d' = false := by decide
    have htake : (c :: cs ++ '\x7d' :: '\x7d' :: rest).takeWhile isNameChar = c :: cs := by
      rw [List.takeWhile_append_of_pos hname, List.takeWhile_cons_of_neg (by simp [hclose]),
        List.append_nil]
    have hdrop : (c :: cs ++ '\x7d' :: '\x7d' :: rest).dropWhile isNameChar =
        '\x7d' :: '\x7d' :: rest := by
      rw [List.dropWhile_append_of_pos hname, List.dropWhile_cons_of_neg (by simp [hclose])]
    have htext : slotText (c :: cs) ++ rest =
        '\x7b' :: '\x7b' :: (c :: cs ++ '\x7d' :: '\x7d' :: rest) := by
      simp [slotText]
    rw [htext, slotAt?, htake, hdrop]
    rfl

theorem length_slotText (name : List Char) : (slotText name).length = name.length + 4 := by
  simp [slotText]

/-- A character that stands in no slot. -/
def isApart (c : Char) : Bool := !isNameChar c && c ≠ '\x7b' && c ≠ '\x7d'

theorem not_mem_slotText (hc : isApart c = true) (hname : ∀ c ∈ name, isNameChar c = true) :
    c ∉ slotText name := by
  simp only [isApart, Bool.and_eq_true, Bool.not_eq_true', decide_eq_true_eq] at hc
  obtain ⟨⟨hnot, hopen⟩, hclose⟩ := hc
  have hmem : c ∉ name := fun hmem => by simp [hname c hmem] at hnot
  simp [slotText, hmem, hopen, hclose]

/-- Whether a slot starts somewhere does not depend on what comes after such a character. -/
theorem slotAt?_append_cons (hc : isApart c = true) (before after : List Char) :
    slotAt? (before ++ c :: after) = slotAt? before := by
  refine Option.ext fun name => ?_
  rw [slotAt?_eq_some_iff, slotAt?_eq_some_iff]
  refine and_congr_right fun _ => and_congr_right fun hname => ⟨?_, ?_⟩
  · rintro ⟨rest, htext⟩
    obtain ⟨more, hslot, hmore⟩ | ⟨more, rfl, -⟩ := List.append_eq_append_iff.1 htext
    · -- The slot ends before the character, since it cannot reach beyond it.
      cases more with
      | nil => exact ⟨[], by simpa using hslot.symm⟩
      | cons first others =>
        obtain ⟨rfl, -⟩ := List.cons.inj hmore
        exact absurd (hslot ▸ by simp) (not_mem_slotText hc hname)
    · exact ⟨more, rfl⟩
  · rintro ⟨rest, rfl⟩
    exact ⟨rest ++ c :: after, by simp⟩

/-! ## Slots of pieces -/

theorem tokensAfter_append_cons (hc : isApart c = true) (before after : List Char) :
    ∀ skip ≤ before.length, tokensAfter skip (before ++ c :: after) =
      tokensAfter skip before ++ .char c :: tokensAfter 0 after := by
  induction before with
  | nil =>
    intro skip hskip
    obtain rfl := Nat.le_zero.1 hskip
    have hnone : slotAt? (c :: after) = none := slotAt?_append_cons hc [] after
    simp [tokensAfter, hnone]
  | cons first rest ih =>
    intro skip hskip
    cases skip with
    | succ skip => exact ih skip (Nat.le_of_succ_le_succ hskip)
    | zero =>
      have hslot := slotAt?_append_cons hc (first :: rest) after
      rw [List.cons_append] at hslot ⊢
      rw [tokensAfter, tokensAfter, hslot]
      cases hfound : slotAt? (first :: rest) with
      | none => simp [ih 0]
      | some name =>
        obtain ⟨-, -, more, htext⟩ := slotAt?_eq_some_iff.1 hfound
        have hlength : name.length + 3 ≤ rest.length := by
          have := congrArg List.length htext
          simp [length_slotText] at this
          omega
        simp [ih _ hlength]

/-- The name of a slot. -/
def Token.slot? : Token → Option (List Char)
  | .char _ => none
  | .slot name => some name

/-- The names of the slots of a text. -/
def slots (text : List Char) : List (List Char) := (tokens text).filterMap Token.slot?

/-- **The slots of a text are those of its pieces.** -/
theorem slots_append_cons (hc : isApart c = true) (before after : List Char) :
    slots (before ++ c :: after) = slots before ++ slots after := by
  rw [slots, tokens, tokensAfter_append_cons hc before after 0 (Nat.zero_le _),
    List.filterMap_append, List.filterMap_cons]
  rfl

/-! ## Filling -/

/-- **A template is filled if every slot has a value.** -/
theorem exists_fill {template : String} {values : List (String × String)}
    (h : ∀ name ∈ slots template.toList, String.ofList name ∈ values.map Prod.fst) :
    ∃ text, fill template values = .ok text := by
  rw [fill]
  cases hfill : (tokens template.toList).mapM (textOf values) with
  | ok texts => exact ⟨String.join texts, rfl⟩
  | error unfilled =>
    obtain ⟨token, hmem, htoken⟩ := exists_of_mapM_eq_error hfill
    cases token with
    | char c => cases htoken
    | slot name =>
      obtain ⟨value, hvalue⟩ :=
        Members.exists_lookup_of_mem_names (h name (List.mem_filterMap.2 ⟨_, hmem, rfl⟩))
      rw [textOf, hvalue] at htoken
      cases htoken

end ElmWire.Template
