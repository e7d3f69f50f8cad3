import ElmWire.Json.Printer
import ElmWire.Proofs.Json.Reading

/-!
# Numbers that read back

`Number.ReadsBack` says of a number that it is what its own text stands for.

* `Number.readsBack_int` — integers of 64 bits read back.
* `Number.readsBack_of_parse?` — a number reads back if the text of the number by itself is read as
  the number.  Whatever a float is, its text consists of word characters (`isWordChar_text`), so
  that the scanner takes it as one word.
-/

set_option autoImplicit false
namespace ElmWire.Json

namespace Number

/-- The literal that a number is written as. -/
def literal (n : Number) : Decimal.Literal :=
  (Decimal.Literal.ofChars? n.text.toList).getD (.ofInt 0)

/-- The number is what its own text stands for. -/
def ReadsBack (n : Number) : Prop :=
  (Decimal.Literal.ofChars? n.text.toList).bind ofLiteral? = some n

theorem ReadsBack.text {n : Number} (h : n.ReadsBack) :
    Token.Text (.number n.literal) n.text.toList := by
  obtain ⟨l, hl, -⟩ := Option.bind_eq_some_iff.1 h
  rw [literal, hl]
  exact .number (Decimal.Literal.ofChars?_eq_some_iff.1 hl)

theorem ReadsBack.ofLiteral? {n : Number} (h : n.ReadsBack) : ofLiteral? n.literal = some n := by
  obtain ⟨l, hl, hn⟩ := Option.bind_eq_some_iff.1 h
  rw [literal, hl]
  exact hn

/-- Integers of 64 bits, with or without a sign, are read back. -/
theorem readsBack_int {n : Int} (hlow : -9223372036854775808 ≤ n)
    (hhigh : n < 18446744073709551616) : (Number.int n).ReadsBack := by
  rw [ReadsBack, Number.text,
    Decimal.Literal.ofChars?_eq_some_iff.2 (Decimal.spelled_toString n), Option.bind_some]
  have hdigits : (Decimal.Literal.ofInt n).digits = n.natAbs := by
    rw [Decimal.Literal.ofInt, Decimal.Literal.digits, List.append_nil, Decimal.ofDigits_toDigits]
  rw [Number.ofLiteral?, hdigits]
  clear hdigits
  generalize hsize : n.natAbs = size
  rcases Int.lt_or_le n 0 with hneg | hnonneg
  · have hfits : 0 < size ∧ size ≤ Nat.pow 2 63 := by
      simp only [Nat.pow_eq]
      omega
    have hvalue : -(size : Int) = n := by omega
    simp [Decimal.Literal.ofInt, Decimal.Literal.integral, hneg, hfits, hvalue]
  · have hfits : size < Nat.pow 2 64 := by
      simp only [Nat.pow_eq]
      omega
    have hvalue : (size : Int) = n := by omega
    have hsign : ¬ n < 0 := by omega
    simp [Decimal.Literal.ofInt, Decimal.Literal.integral, hsign, hfits, hvalue]

end Number

/-! ## The texts of floats -/

/-- A text of nothing but word characters. -/
def WordText (text : String) : Prop := ∀ c ∈ text.toList, isWordChar c

theorem WordText.append {first second : String} (hfirst : WordText first)
    (hsecond : WordText second) :
    WordText (first ++ second) := by
  rw [WordText, String.toList_append]
  exact List.forall_mem_append.2 ⟨hfirst, hsecond⟩

theorem wordText_ofList {chars : List Char} (h : ∀ c ∈ chars, c.isDigit) :
    WordText (String.ofList chars) := by
  rw [WordText, String.toList_ofList]
  exact fun c hc => isWordChar_of_isDigit (h c hc)

theorem isDigit_toString (n : Nat) : ∀ c ∈ (toString n).toList, c.isDigit := by
  intro c hc
  rw [Decimal.toList_toString] at hc
  exact Nat.isDigit_of_mem_toDigits (by omega) (by omega) hc

theorem wordText_toString (n : Nat) : WordText (toString n) := fun c hc =>
  isWordChar_of_isDigit (isDigit_toString n c hc)

theorem wordText_zeros (n : Nat) : WordText (Decimal.zeros n) :=
  wordText_ofList fun c hc => by rw [(List.mem_replicate.1 hc).2]; rfl

theorem wordText_positional {digits : List Char} (h : ∀ c ∈ digits, c.isDigit) (exponent : Int) :
    WordText (Decimal.positional digits exponent) := by
  have hpoint : WordText "." := by simp [WordText, isWordChar]
  rw [Decimal.positional]
  split
  · exact ((wordText_ofList h).append (wordText_zeros _)).append (by simp [WordText, isWordChar])
  · split
    · exact ((wordText_ofList fun c hc => h c (List.mem_of_mem_take hc)).append hpoint).append
        (wordText_ofList fun c hc => h c (List.mem_of_mem_drop hc))
    · have hzero : WordText "0." := by simp [WordText, isWordChar]
      exact (hzero.append (wordText_zeros _)).append (wordText_ofList h)

theorem wordText_scientific {style : Decimal.Style} (hsign : WordText style.exponentSign)
    {digits : List Char} (h : ∀ c ∈ digits, c.isDigit) (exponent : Int) :
    WordText (Decimal.scientific style digits exponent) := by
  rw [Decimal.scientific]
  refine ((((wordText_ofList fun c hc => h c (List.mem_of_mem_take hc)).append ?_).append ?_).append
    ?_).append (wordText_toString _)
  · split
    · simp [WordText]
    · have hpoint : WordText "." := by simp [WordText, isWordChar]
      exact hpoint.append (wordText_ofList fun c hc => h c (List.mem_of_mem_drop hc))
  · simp [WordText, isWordChar]
  · split
    · simp [WordText, isWordChar]
    · exact hsign

/-- A float is written with word characters, whatever it is. -/
theorem wordText_write {style : Decimal.Style} (hsign : WordText style.exponentSign) (x : Float) :
    WordText (style.write x) := by
  have hminus : ∀ negative : Bool, WordText (if negative then "-" else "") := by
    intro negative
    cases negative <;> simp [WordText, isWordChar]
  rw [Decimal.Style.write]
  split
  · split
    · simp [WordText, isWordChar]
    · exact (hminus _).append (by simp [WordText, isWordChar])
  · split
    · exact (hminus _).append (by simp [WordText, isWordChar])
    · refine (hminus _).append ?_
      rw [Decimal.Style.writeDigits]
      split
      · exact wordText_positional (isDigit_toString _) _
      · exact wordText_scientific hsign (isDigit_toString _) _

/-! ## Numbers by themselves -/

/-- A text of word characters is a single token or none. -/
theorem exists_word_of_scan? {chars : List Char} (hchars : ∀ c ∈ chars, isWordChar c)
    (hne : chars ≠ [])
    {tokens : List Token} (h : Token.scan? chars = some tokens) :
    ∃ token, word? chars = some token ∧ tokens = [token] := by
  obtain ⟨c, cs, rfl⟩ := List.exists_cons_of_ne_nil hne
  obtain ⟨hc, hcs⟩ := List.forall_mem_cons.1 hchars
  rw [Token.scan?, Scanner.run?_cons (Scanner.start?_of_isWordChar hc), Scanner.run?_word hcs,
    Option.bind_some, Scanner.finish?] at h
  obtain ⟨token, htoken, htokens⟩ := Option.map_eq_some_iff.1 h
  exact ⟨token, by simpa using htoken, by simpa using htokens.symm⟩

/-- A text of word characters that has a form is one of the three words or a number. -/
theorem exists_word_of_parse? {text : String} (h : WordText text) {form : Form}
    (hform : Form.parse? text = some form) :
    ∃ token, word? text.toList = some token ∧
      Reading.value? [] token = some ⟨[], .nothing form⟩ := by
  obtain ⟨tokens, htokens, hform⟩ := Option.bind_eq_some_iff.1 hform
  obtain ⟨r, hr, hform⟩ := Option.bind_eq_some_iff.1 hform
  have hne : text.toList ≠ [] := by
    intro hnil
    rw [hnil] at htokens
    cases htokens
    cases hr
    cases hform
  obtain ⟨token, htoken, rfl⟩ := exists_word_of_scan? h hne htokens
  refine ⟨token, htoken, ?_⟩
  cases token with
  | null | bool | number | string =>
    cases hr
    cases hform
    rfl
  | openBrace | openBracket =>
    cases hr
    cases hform
  | closeBrace | closeBracket | colon | comma => cases hr

/-- **A float reads back if its text by itself is read as the float.** -/
theorem Number.readsBack_of_parse? {x : Float}
    (h : Json.parse? (Json.number (.float x)).compact = some (.number (.float x))) :
    (Number.float x).ReadsBack := by
  have hword : WordText (floatStyle.write x) :=
    wordText_write (by simp [WordText, isWordChar, floatStyle]) x
  rw [compact, Number.text, parse?] at h
  obtain ⟨form, hform, hvalue⟩ := Option.bind_eq_some_iff.1 h
  obtain ⟨token, htoken, hread⟩ := exists_word_of_parse? hword hform
  rw [word?] at htoken
  split at htoken
  · cases htoken
    cases hread
    cases hvalue
  · split at htoken
    · cases htoken
      cases hread
      cases hvalue
    · split at htoken
      · cases htoken
        cases hread
        cases hvalue
      · obtain ⟨l, hl, rfl⟩ := Option.map_eq_some_iff.1 htoken
        cases hread
        obtain ⟨n, hn, hnumber⟩ := Option.map_eq_some_iff.1 hvalue
        cases hnumber
        rw [ReadsBack, Number.text, hl]
        exact hn

end ElmWire.Json
