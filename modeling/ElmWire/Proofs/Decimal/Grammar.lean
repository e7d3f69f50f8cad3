import Mathlib.Data.List.TakeWhile
import ElmWire.Decimal.Literal

/-!
# How numbers are written

The number grammar of JSON as a relation between literals and texts, and what `Literal.ofChars?` has
to do with it.  A text belongs to one literal; a literal has many texts, since an exponent may have
a sign and leading zeros.

* `Literal.Spelled` — the grammar: a minus sign or none, an integer without leading zeros, perhaps a
  point with digits, perhaps an exponent.
* `Literal.ofChars?_eq_some_iff` — **the reader accepts exactly the grammar.**
* `spelled_toString` — the text of an integer follows it.
-/

set_option autoImplicit false
namespace ElmWire.Decimal

/-! ## The grammar -/

/-- One or more decimal digits. -/
def IsDigits (cs : List Char) : Prop := cs ≠ [] ∧ ∀ c ∈ cs, c.isDigit

/-- An integer without leading zeros. -/
def IsInteger (cs : List Char) : Prop := cs = ['0'] ∨ IsDigits cs ∧ cs.head? ≠ some '0'

/-- The text of an exponent, which may be missing. -/
inductive ExponentText : Option Int → List Char → Prop
  | none : ExponentText none []
  | plain {mark : Char} {digits : List Char} (hmark : mark = 'e' ∨ mark = 'E')
      (hdigits : IsDigits digits) : ExponentText (some (ofDigits digits)) (mark :: digits)
  | plus {mark : Char} {digits : List Char} (hmark : mark = 'e' ∨ mark = 'E')
      (hdigits : IsDigits digits) : ExponentText (some (ofDigits digits)) (mark :: '+' :: digits)
  | minus {mark : Char} {digits : List Char} (hmark : mark = 'e' ∨ mark = 'E')
      (hdigits : IsDigits digits) : ExponentText (some (-ofDigits digits)) (mark :: '-' :: digits)

/-- The text of the digits after the point, without a point if there are none. -/
def placesText : List Char → List Char
  | [] => []
  | places => '.' :: places

/-- The sign of a number. -/
def signText (negative : Bool) : List Char := if negative then ['-'] else []

/-- The text spells the literal. -/
inductive Literal.Spelled : Literal → List Char → Prop
  | mk {negative : Bool} {whole places tail : List Char} {exponent : Option Int}
      (hwhole : IsInteger whole) (hplaces : ∀ c ∈ places, c.isDigit)
      (htail : ExponentText exponent tail) :
      Spelled ⟨negative, whole, places, exponent⟩
        (signText negative ++ (whole ++ (placesText places ++ tail)))

/-! ## Runs of digits -/

/-- The text does not go on with a digit. -/
def NoDigit (rest : List Char) : Prop := ∀ c ∈ rest.head?, c.isDigit = false

theorem takeWhile_of_noDigit {rest : List Char} (h : NoDigit rest) :
    rest.takeWhile Char.isDigit = [] ∧ rest.dropWhile Char.isDigit = rest := by
  cases rest with
  | nil => exact ⟨rfl, rfl⟩
  | cons c rest =>
    have hc : c.isDigit = false := h c rfl
    simp [hc]

/-- A run of digits ends where the text does not go on with one. -/
theorem span_digits {digits rest : List Char} (hdigits : ∀ c ∈ digits, c.isDigit)
    (hrest : NoDigit rest) :
    (digits ++ rest).takeWhile Char.isDigit = digits ∧
      (digits ++ rest).dropWhile Char.isDigit = rest := by
  obtain ⟨htake, hdrop⟩ := takeWhile_of_noDigit hrest
  rw [List.takeWhile_append_of_pos hdigits, List.dropWhile_append_of_pos hdigits, htake, hdrop,
    List.append_nil]
  exact ⟨rfl, rfl⟩

theorem IsInteger.isDigits {cs : List Char} (h : IsInteger cs) : IsDigits cs := by
  rcases h with rfl | ⟨hdigits, -⟩
  · exact ⟨by simp, by simp⟩
  · exact hdigits

theorem ExponentText.noDigit {e : Option Int} {tail : List Char} (h : ExponentText e tail) :
    NoDigit tail := by
  cases h with
  | none => simp [NoDigit]
  | plain hmark _ | plus hmark _ | minus hmark _ => rcases hmark with rfl | rfl <;> simp [NoDigit]

/-- The exponent does not start with a point. -/
theorem ExponentText.head_ne {e : Option Int} {tail : List Char} (h : ExponentText e tail) :
    ∀ c ∈ tail.head?, c ≠ '.' := by
  cases h with
  | none => simp
  | plain hmark _ | plus hmark _ | minus hmark _ => rcases hmark with rfl | rfl <;> simp

namespace Literal

/-! ## Reading the parts of a number -/

theorem isWhole_iff {cs : List Char} : isWhole cs = true ↔ IsInteger cs := by
  rw [isWhole.eq_def]
  split
  · exact ⟨fun _ => .inl rfl, fun _ => rfl⟩
  · next c cs hne =>
    simp only [Bool.and_eq_true, bne_iff_ne, List.all_eq_true]
    constructor
    · rintro ⟨⟨hzero, hc⟩, hcs⟩
      exact .inr ⟨⟨by simp, List.forall_mem_cons.2 ⟨hc, hcs⟩⟩, by simpa using hzero⟩
    · rintro (heq | ⟨⟨-, hdigits⟩, hzero⟩)
      · cases heq
        exact absurd rfl (hne · rfl)
      · obtain ⟨hc, hcs⟩ := List.forall_mem_cons.1 hdigits
        exact ⟨⟨by simpa using hzero, hc⟩, hcs⟩
  · exact ⟨fun h => absurd h (by simp), fun h => absurd rfl h.isDigits.1⟩

theorem isDigits_iff {digits : List Char} :
    (digits.isEmpty || !digits.all Char.isDigit) = false ↔ IsDigits digits := by
  rw [Bool.or_eq_false_iff, Bool.not_eq_false', List.all_eq_true, List.isEmpty_eq_false_iff]
  rfl

theorem isMark_iff {mark : Char} :
    (mark != 'e' && mark != 'E') = false ↔ mark = 'e' ∨ mark = 'E' := by
  rw [Bool.and_eq_false_iff, bne_eq_false_iff_eq, bne_eq_false_iff_eq]

/-- Digits are not preceded by a sign that is one of them. -/
theorem not_sign_of_isDigits {sign : Char} {digits : List Char} (hsign : sign.isDigit = false) :
    ¬ IsDigits (sign :: digits) := by
  intro h
  simpa [hsign] using h.2 sign (List.mem_cons_self ..)

theorem exponent?_eq_some_iff {cs : List Char} {e : Option Int} :
    exponent? cs = some e ↔ ExponentText e cs := by
  constructor
  · fun_cases exponent? cs with
    | case1 =>
      rintro ⟨⟩
      exact .none
    | case2 mark rest hmark => rintro ⟨⟩
    | case3 mark rest hmark negative digits hsplit hdigits => rintro ⟨⟩
    | case4 mark rest hmark negative digits hsplit hdigits =>
      rintro ⟨⟩
      have hmark := isMark_iff.1 (Bool.not_eq_true _ ▸ hmark)
      have hdigits := isDigits_iff.1 (Bool.not_eq_true _ ▸ hdigits)
      split at hsplit
      · cases hsplit
        exact .minus hmark hdigits
      · cases hsplit
        exact .plus hmark hdigits
      · cases hsplit
        exact .plain hmark hdigits
  · intro h
    cases h with
    | none => rfl
    | @plain mark digits hmark hdigits =>
      simp only [exponent?, isMark_iff.2 hmark, Bool.false_eq_true, if_false]
      split
      · exact absurd hdigits (not_sign_of_isDigits rfl)
      · exact absurd hdigits (not_sign_of_isDigits rfl)
      · simp [isDigits_iff.2 hdigits]
    | plus hmark hdigits => simp [exponent?, isMark_iff.2 hmark, isDigits_iff.2 hdigits]
    | minus hmark hdigits => simp [exponent?, isMark_iff.2 hmark, isDigits_iff.2 hdigits]

theorem afterWhole?_eq_some_iff {negative : Bool} {whole rest : List Char} {l : Literal} :
    afterWhole? negative whole rest = some l ↔
      ∃ places exponent tail, (∀ c ∈ places, c.isDigit) ∧ ExponentText exponent tail ∧
        rest = placesText places ++ tail ∧ l = ⟨negative, whole, places, exponent⟩ := by
  constructor
  · fun_cases afterWhole? negative whole rest with
    | case1 more places hplaces => rintro ⟨⟩
    | case2 more places hplaces =>
      intro h
      obtain ⟨exponent, hexponent, rfl⟩ := Option.map_eq_some_iff.1 h
      have hdigits : ∀ c ∈ places, c.isDigit := fun c hc => List.mem_takeWhile_imp hc
      refine ⟨places, exponent, _, hdigits, exponent?_eq_some_iff.1 hexponent, ?_, rfl⟩
      cases hcase : places with
      | nil => simp [hcase] at hplaces
      | cons c cs =>
        rw [placesText, ← hcase, List.cons_append, List.takeWhile_append_dropWhile]
        simp
    | case3 rest hpoint =>
      intro h
      obtain ⟨exponent, hexponent, rfl⟩ := Option.map_eq_some_iff.1 h
      exact ⟨[], exponent, rest, by simp, exponent?_eq_some_iff.1 hexponent, rfl, rfl⟩
  · rintro ⟨places, exponent, tail, hplaces, htail, rfl, rfl⟩
    have hexponent := exponent?_eq_some_iff.2 htail
    cases places with
    | nil =>
      rw [placesText, List.nil_append]
      fun_cases afterWhole? negative whole tail with
      | case1 more | case2 more => exact absurd rfl (htail.head_ne '.' rfl)
      | case3 => rw [hexponent]; rfl
    | cons c cs =>
      obtain ⟨htake, hdrop⟩ := span_digits hplaces htail.noDigit
      rw [placesText, List.cons_append, afterWhole?]
      · simp only [htake, hdrop, hexponent]
        rfl
      · simp

/-- **The reader accepts exactly the number grammar**, and finds the literal that is spelled. -/
theorem ofChars?_eq_some_iff {cs : List Char} {l : Literal} :
    ofChars? cs = some l ↔ l.Spelled cs := by
  constructor
  · fun_cases ofChars? cs with
    | case1 negative body hsign whole hwhole =>
      intro h
      obtain ⟨places, exponent, tail, hplaces, htail, hrest, rfl⟩ := afterWhole?_eq_some_iff.1 h
      have hbody : body = whole ++ (placesText places ++ tail) := by
        rw [← hrest, List.takeWhile_append_dropWhile]
      have hcs : cs = signText negative ++ body := by
        split at hsign <;> cases hsign <;> rfl
      rw [hcs, hbody]
      exact .mk (isWhole_iff.1 hwhole) hplaces htail
    | case2 => rintro ⟨⟩
  · rintro @⟨negative, whole, places, tail, exponent, hwhole, hplaces, htail⟩
    have hrest : NoDigit (placesText places ++ tail) := by
      cases places with
      | nil => exact htail.noDigit
      | cons c cs => simp [placesText, NoDigit]
    obtain ⟨htake, hdrop⟩ := span_digits hwhole.isDigits.2 hrest
    have hread : afterWhole? negative whole (placesText places ++ tail) =
        some ⟨negative, whole, places, exponent⟩ :=
      afterWhole?_eq_some_iff.2 ⟨places, exponent, tail, hplaces, htail, rfl, rfl⟩
    cases negative with
    | true =>
      show ofChars? ('-' :: (whole ++ (placesText places ++ tail))) = _
      simp only [ofChars?, htake, hdrop, isWhole_iff.2 hwhole, if_true, hread]
    | false =>
      show ofChars? (whole ++ (placesText places ++ tail)) = _
      obtain ⟨c, cs, rfl⟩ := List.exists_cons_of_ne_nil hwhole.isDigits.1
      have hsign : c ≠ '-' := by
        rintro rfl
        exact not_sign_of_isDigits rfl hwhole.isDigits
      rw [List.cons_append] at htake hdrop ⊢
      simp only [ofChars?]
      split
      · next heq => exact absurd (List.cons.inj heq).1 hsign
      · simp only [htake, hdrop, isWhole_iff.2 hwhole, if_true, hread]

end Literal

/-! ## Integers -/

/-- The literal that an integer is written as. -/
def Literal.ofInt (n : Int) : Literal := ⟨n < 0, Nat.toDigits 10 n.natAbs, [], none⟩

theorem ofDigits_toDigits (n : Nat) : ofDigits (Nat.toDigits 10 n) = n :=
  Nat.ofDigitChars_ten_toDigits

theorem toList_toString (n : Nat) : (toString n).toList = Nat.toDigits 10 n := by
  rw [Nat.toString_eq_repr, Nat.repr_eq_ofList_toDigits, String.toList_ofList]

theorem toString_injective {m n : Nat} (h : toString m = toString n) : m = n := by
  rw [← ofDigits_toDigits m, ← toList_toString, h, toList_toString, ofDigits_toDigits]

theorem head?_toDigits {n : Nat} (h : 0 < n) : (Nat.toDigits 10 n).head? ≠ some '0' := by
  induction n using Nat.strongRecOn with
  | ind n ih =>
    rcases Nat.lt_or_ge n 10 with hlt | hge
    · rw [Nat.toDigits_of_lt_base hlt, List.head?_cons]
      simp
      omega
    · have hfirst := ih (n / 10) (by omega) (by omega)
      rw [Nat.toDigits_of_base_le (by omega) hge, List.head?_append]
      cases hhead : (Nat.toDigits 10 (n / 10)).head? with
      | none => exact absurd (List.head?_eq_none_iff.1 hhead) Nat.toDigits_ne_nil
      | some c => simpa [hhead] using hfirst

theorem isInteger_toDigits (n : Nat) : IsInteger (Nat.toDigits 10 n) := by
  rcases Nat.eq_zero_or_pos n with rfl | hpos
  · exact .inl (Nat.toDigits_zero 10)
  · refine .inr ⟨⟨Nat.toDigits_ne_nil, fun c hc => ?_⟩, head?_toDigits hpos⟩
    exact Nat.isDigit_of_mem_toDigits (by omega) (by omega) hc

/-- The text of an integer follows the number grammar. -/
theorem spelled_toString (n : Int) : (Literal.ofInt n).Spelled (toString n).toList := by
  have htext : (toString n).toList = signText (n < 0) ++
      (Nat.toDigits 10 n.natAbs ++ (placesText [] ++ [])) := by
    rw [Int.toString_eq_repr, Int.repr_eq_if, placesText, List.append_nil, List.append_nil]
    rcases Int.lt_or_le n 0 with hneg | hnonneg
    · have habs : (-n).toNat = n.natAbs := by omega
      rw [if_neg (by omega), habs, Nat.repr_eq_ofList_toDigits]
      simp [signText, hneg]
    · have habs : n.toNat = n.natAbs := by omega
      rw [if_pos hnonneg, habs, Nat.repr_eq_ofList_toDigits]
      simp [signText, hnonneg]
  rw [htext]
  exact .mk (isInteger_toDigits _) (by simp) .none

end ElmWire.Decimal
