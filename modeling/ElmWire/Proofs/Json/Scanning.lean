import Mathlib.Data.List.Chain
import ElmWire.Json.Token
import ElmWire.Proofs.Decimal.Grammar

/-!
# How tokens are written

A token has many texts: a character of a string may stand for itself or be escaped in one of several
ways, and there may be blanks in front of every token.  `Token.Texts` says which texts a list of
tokens has.

`Token.scan?_of_texts` is what the scanner makes of them: **it finds the tokens that were written**,
however that was done, as long as no two words or numbers come to stand next to each other.  The
proof follows the scanner through a text.  At the end of every token it *stands* behind the tokens
so far (`Scanner.Stands`): either it has put the last one away, or it is still holding a word that
is going to be it.
-/

set_option autoImplicit false
namespace ElmWire.Json

/-! ## Texts of tokens -/

/-- Four hexadecimal digits and the number that they stand for. -/
inductive HexText : Nat → List Char → Prop
  | mk {a b c d : Char} {w x y z : Nat} (ha : hexValue? a = some w) (hb : hexValue? b = some x)
      (hc : hexValue? c = some y) (hd : hexValue? d = some z) :
      HexText (16 * (16 * (16 * w + x) + y) + z) [a, b, c, d]

/-- The text stands for the code unit inside a string literal. -/
inductive UnitText : Nat → List Char → Prop
  | plain {c : Char} (hquote : c ≠ '\x22') (hslash : c ≠ '\\') (hcontrol : ¬ c.toNat < 0x20) :
      UnitText c.toNat [c]
  | letter {letter c : Char} (h : escapeLetter? letter = some c) : UnitText c.toNat ['\\', letter]
  | code {unit : Nat} {digits : List Char} (h : HexText unit digits) :
      UnitText unit ('\\' :: 'u' :: digits)

/-- The text stands for the code units inside a string literal. -/
inductive UnitsText : List Nat → List Char → Prop
  | nil : UnitsText [] []
  | cons {unit : Nat} {units : List Nat} {text rest : List Char} (hunit : UnitText unit text)
      (hrest : UnitsText units rest) : UnitsText (unit :: units) (text ++ rest)

/-- No half of a pair stands alone among the code units. -/
inductive Paired : List Nat → Prop
  | nil : Paired []
  | single {unit : Nat} {units : List Nat} (hhigh : isHigh unit = false) (hlow : isLow unit = false)
      (h : Paired units) : Paired (unit :: units)
  | pair {high low : Nat} {units : List Nat} (hhigh : isHigh high) (hlow : isLow low)
      (h : Paired units) : Paired (high :: low :: units)

/-- The text stands for the character inside a string literal. -/
inductive CharText (c : Char) : List Char → Prop
  | single {text : List Char} (h : UnitText c.toNat text) : CharText c text
  /-- A character beyond the 16-bit code units is escaped as a pair of them. -/
  | pair {high low : Nat} {first second : List Char} (hfirst : HexText high first)
      (hsecond : HexText low second) (hhigh : isHigh high) (hlow : isLow low)
      (h : c.toNat = 0x10000 + (high - 0xd800) * 0x400 + (low - 0xdc00)) :
      CharText c ('\\' :: 'u' :: (first ++ '\\' :: 'u' :: second))

/-- The text stands for the characters inside a string literal. -/
inductive CharsText : List Char → List Char → Prop
  | nil : CharsText [] []
  | cons {c : Char} {cs text rest : List Char} (hc : CharText c text) (hrest : CharsText cs rest) :
      CharsText (c :: cs) (text ++ rest)

/-- The text spells the token. -/
inductive Token.Text : Token → List Char → Prop
  | openBrace : Token.Text .openBrace ['\x7b']
  | closeBrace : Token.Text .closeBrace ['\x7d']
  | openBracket : Token.Text .openBracket ['[']
  | closeBracket : Token.Text .closeBracket [']']
  | colon : Token.Text .colon [':']
  | comma : Token.Text .comma [',']
  | null : Token.Text .null ['n', 'u', 'l', 'l']
  | yes : Token.Text (.bool true) ['t', 'r', 'u', 'e']
  | no : Token.Text (.bool false) ['f', 'a', 'l', 's', 'e']
  | number {l : Decimal.Literal} {cs : List Char} (h : l.Spelled cs) : Token.Text (.number l) cs
  | string {s : String} {cs : List Char} (h : CharsText s.toList cs) :
      Token.Text (.string (some s)) ('\x22' :: (cs ++ ['\x22']))
  /-- A literal with half of a pair is a literal, if one without a text. -/
  | unpaired {units : List Nat} {cs : List Char} (h : UnitsText units cs)
      (hpairs : ¬ Paired units) :
      Token.Text (.string none) ('\x22' :: (cs ++ ['\x22']))

/-- Nothing but blanks. -/
def Blanks (cs : List Char) : Prop := ∀ c ∈ cs, isBlank c

/-- The text spells the tokens, with any blanks before, between and after them. -/
inductive Token.Texts : List Token → List Char → Prop
  | nil {blanks : List Char} (h : Blanks blanks) : Token.Texts [] blanks
  | cons {token : Token} {tokens : List Token} {blanks text rest : List Char}
      (hblanks : Blanks blanks) (htext : token.Text text) (hrest : Token.Texts tokens rest) :
      Token.Texts (token :: tokens) (blanks ++ (text ++ rest))

/-- Is the token written with word characters, so that it has no end of its own? -/
def Token.isWord : Token → Bool
  | .null | .bool _ | .number _ => true
  | _ => false

/-- The two tokens may stand next to each other. -/
def Token.Apart (first second : Token) : Prop := first.isWord = false ∨ second.isWord = false

/-! ## Words -/

theorem isWordChar_of_isDigit {c : Char} (h : c.isDigit) : isWordChar c := by
  simp [isWordChar, Char.isAlphanum, h]

theorem isWordChar_of_isMark {c : Char} (h : c = 'e' ∨ c = 'E') : isWordChar c := by
  rcases h with rfl | rfl <;> rfl

theorem isWordChar_of_exponentText {e : Option Int} {tail : List Char}
    (h : Decimal.ExponentText e tail) : ∀ c ∈ tail, isWordChar c := by
  cases h with
  | none => simp
  | plain hmark hdigits =>
    exact List.forall_mem_cons.2 ⟨isWordChar_of_isMark hmark,
      fun c hc => isWordChar_of_isDigit (hdigits.2 c hc)⟩
  | plus hmark hdigits | minus hmark hdigits =>
    exact List.forall_mem_cons.2 ⟨isWordChar_of_isMark hmark, List.forall_mem_cons.2 ⟨rfl,
      fun c hc => isWordChar_of_isDigit (hdigits.2 c hc)⟩⟩

/-- A number consists of word characters, and starts with a sign or a digit. -/
theorem isWordChar_of_spelled {l : Decimal.Literal} {cs : List Char} (h : l.Spelled cs) :
    (∀ c ∈ cs, isWordChar c) ∧ ∃ c rest, cs = c :: rest ∧ (c = '-' ∨ c.isDigit) := by
  obtain @⟨negative, whole, places, tail, exponent, hwhole, hplaces, htail⟩ := h
  obtain ⟨hne, hdigits⟩ := hwhole.isDigits
  constructor
  · simp only [List.forall_mem_append]
    refine ⟨?_, fun c hc => isWordChar_of_isDigit (hdigits c hc), ?_,
      isWordChar_of_exponentText htail⟩
    · cases negative <;> simp [Decimal.signText, isWordChar]
    · cases places with
      | nil => simp [Decimal.placesText]
      | cons place places =>
        exact List.forall_mem_cons.2 ⟨rfl, fun c hc => isWordChar_of_isDigit (hplaces c hc)⟩
  · cases negative with
    | true => exact ⟨'-', _, rfl, .inl rfl⟩
    | false =>
      obtain ⟨c, cs, rfl⟩ := List.exists_cons_of_ne_nil hne
      exact ⟨c, _, rfl, .inr (hdigits c (List.mem_cons_self ..))⟩

theorem word?_of_spelled {l : Decimal.Literal} {cs : List Char} (h : l.Spelled cs) :
    word? cs = some (.number l) := by
  obtain ⟨-, c, rest, rfl, hc⟩ := isWordChar_of_spelled h
  have hletter : ∀ letter word, letter ≠ '-' → letter.isDigit = false →
      c :: rest ≠ letter :: word := by
    rintro letter word hsign hdigit ⟨⟩
    rcases hc with rfl | hc
    · exact hsign rfl
    · simp [hdigit] at hc
  rw [word?, if_neg (hletter 't' _ (by decide) rfl), if_neg (hletter 'f' _ (by decide) rfl),
    if_neg (hletter 'n' _ (by decide) rfl), Decimal.Literal.ofChars?_eq_some_iff.2 h]
  rfl

/-- The text of a word is understood as the word. -/
theorem Token.Text.word {token : Token} {text : List Char} (h : token.Text text)
    (hword : token.isWord = true) :
    word? text = some token ∧ text ≠ [] ∧ ∀ c ∈ text, isWordChar c := by
  cases h with
  | null | yes | no => exact ⟨rfl, by simp, by simp [isWordChar]⟩
  | number h =>
    obtain ⟨hchars, c, rest, rfl, -⟩ := isWordChar_of_spelled h
    exact ⟨word?_of_spelled h, by simp, hchars⟩
  | openBrace | closeBrace | openBracket | closeBracket | colon | comma | string | unpaired =>
    cases hword

/-! ## Strings -/

namespace Scanner

theorem run?_cons {s next : Scanner} {c : Char} (h : s.step? c = some next) (cs : List Char) :
    s.run? (c :: cs) = next.run? cs := by
  rw [run?, h]

theorem run?_append (s : Scanner) (cs ds : List Char) :
    s.run? (cs ++ ds) = (s.run? cs).bind (run? · ds) := by
  induction cs generalizing s with
  | nil => rfl
  | cons c cs ih =>
    rw [List.cons_append, run?, run?]
    cases s.step? c with
    | none => rfl
    | some next => exact ih next

end Scanner

/-- Four hexadecimal digits are one code unit. -/
theorem HexText.run? {value : Nat} {digits : List Char} (h : HexText value digits)
    (tokens : List Token) (units : List Nat) :
    Scanner.run? ⟨tokens, .string units (.hex 0 0)⟩ digits =
      some ⟨tokens, .string (value :: units) .outside⟩ := by
  obtain ⟨ha, hb, hc, hd⟩ := h
  simp [Scanner.run?, Scanner.step?, Scanner.stringStep?, ha, hb, hc, hd]

theorem not_surrogate (c : Char) : isHigh c.toNat = false ∧ isLow c.toNat = false := by
  have h := c.valid
  simp only [UInt32.isValidChar, Nat.isValidChar] at h
  simp only [isHigh, isLow, Bool.and_eq_false_iff, decide_eq_false_iff_not, Char.toNat]
  omega

/-- A character that is one code unit. -/
theorem joinPairs_single (c : Char) (units : List Nat) (chars : List Char) :
    joinPairs (c.toNat :: units) chars = joinPairs units (c :: chars) := by
  obtain ⟨hhigh, hlow⟩ := not_surrogate c
  cases units <;> simp [joinPairs, hhigh, hlow]

/-- A character that is a pair of code units. -/
theorem joinPairs_pair {high low : Nat} (hhigh : isHigh high) (hlow : isLow low) (units : List Nat)
    (chars : List Char) : joinPairs (low :: high :: units) chars =
      joinPairs units
        (Char.ofNat (0x10000 + (high - 0xd800) * 0x400 + (low - 0xdc00)) :: chars) := by
  simp [joinPairs, hhigh, hlow]

/-- Code units that can be joined were paired. -/
theorem paired_of_joinPairs {units : List Nat} {chars joined : List Char}
    (h : joinPairs units chars = some joined) : Paired units.reverse := by
  have happend : ∀ {first second : List Nat}, Paired first → Paired second →
      Paired (first ++ second) := by
    intro first second hfirst hsecond
    induction hfirst with
    | nil => exact hsecond
    | single hhigh hlow _ ih => exact .single hhigh hlow ih
    | pair hhigh hlow _ ih => exact .pair hhigh hlow ih
  fun_induction joinPairs units chars with
  | case1 chars => exact .nil
  | case2 unit chars hhalf => cases h
  | case3 unit chars hhalf =>
    simp only [Bool.or_eq_true, not_or, Bool.not_eq_true] at hhalf
    exact .single hhalf.1 hhalf.2 .nil
  | case4 unit before rest chars hlow hhigh ih =>
    rw [List.reverse_cons, List.reverse_cons, List.append_assoc]
    exact happend (ih h) (.pair hhigh hlow .nil)
  | case5 unit before rest chars hlow hhigh => cases h
  | case6 unit before rest chars hlow hhigh => cases h
  | case7 unit before rest chars hlow hhigh ih =>
    rw [List.reverse_cons]
    exact happend (ih h) (.single (by simpa using hhigh) (by simpa using hlow) .nil)

/-- Scanning a code unit inside a string literal collects it. -/
theorem UnitText.run? {unit : Nat} {text : List Char} (h : UnitText unit text)
    (tokens : List Token) (units : List Nat) :
    Scanner.run? ⟨tokens, .string units .outside⟩ text =
      some ⟨tokens, .string (unit :: units) .outside⟩ := by
  cases h with
  | plain hquote hslash hcontrol =>
    simp only [Scanner.run?, Scanner.step?, Scanner.stringStep?, if_neg hquote, if_neg hslash,
      if_neg hcontrol]
  | @letter letter c h =>
    have hu : letter ≠ 'u' := by
      rintro rfl
      cases h
    simp [Scanner.run?, Scanner.step?, Scanner.stringStep?, hu, h]
  | code h => exact h.run? tokens units

theorem UnitsText.run? {more : List Nat} {text : List Char} (h : UnitsText more text)
    (tokens : List Token) (units : List Nat) :
    Scanner.run? ⟨tokens, .string units .outside⟩ text =
      some ⟨tokens, .string (more.reverse ++ units) .outside⟩ := by
  induction h generalizing units with
  | nil => rfl
  | cons hunit _ ih =>
    rw [Scanner.run?_append, hunit.run?, Option.bind_some, ih, List.reverse_cons, List.append_assoc]
    rfl

/-- Scanning a character inside a string literal collects code units that stand for it. -/
theorem CharText.exists_run? {c : Char} {text : List Char} (h : CharText c text)
    (tokens : List Token) (units : List Nat) :
    ∃ units', Scanner.run? ⟨tokens, .string units .outside⟩ text =
        some ⟨tokens, .string units' .outside⟩ ∧
      ∀ chars, joinPairs units' chars = joinPairs units (c :: chars) := by
  cases h with
  | single h => exact ⟨c.toNat :: units, h.run? tokens units, joinPairs_single c units⟩
  | @pair high low first second hfirst hsecond hhigh hlow h =>
    refine ⟨low :: high :: units, ?_, fun chars => ?_⟩
    · show Scanner.run? ⟨tokens, .string units (.hex 0 0)⟩ (first ++ '\\' :: 'u' :: second) = _
      rw [Scanner.run?_append, hfirst.run?]
      exact hsecond.run? tokens (high :: units)
    · rw [joinPairs_pair hhigh hlow, ← h, Char.ofNat_toNat]

theorem CharsText.exists_run? {cs text : List Char} (h : CharsText cs text) (tokens : List Token)
    (units : List Nat) : ∃ units', Scanner.run? ⟨tokens, .string units .outside⟩ text =
        some ⟨tokens, .string units' .outside⟩ ∧
      ∀ chars, joinPairs units' chars = joinPairs units (cs ++ chars) := by
  induction h generalizing units with
  | nil => exact ⟨units, rfl, fun chars => rfl⟩
  | cons hc _ ih =>
    obtain ⟨units₁, hrun₁, hjoin₁⟩ := hc.exists_run? tokens units
    obtain ⟨units₂, hrun₂, hjoin₂⟩ := ih units₁
    refine ⟨units₂, ?_, fun chars => ?_⟩
    · rw [Scanner.run?_append, hrun₁]
      exact hrun₂
    · rw [hjoin₂, hjoin₁, List.cons_append]

/-- The text of a token that ends by itself puts the token away. -/
theorem Token.Text.run?_of_not_isWord {token : Token} {text : List Char} (h : token.Text text)
    (hword : token.isWord = false) (tokens : List Token) :
    Scanner.run? ⟨tokens, .between⟩ text = some ⟨token :: tokens, .between⟩ := by
  cases h with
  | openBrace | closeBrace | openBracket | closeBracket | colon | comma => rfl
  | @string s cs h =>
    obtain ⟨units, hrun, hjoin⟩ := h.exists_run? tokens []
    have hchars : joinPairs units [] = some s.toList := by
      rw [hjoin, joinPairs, List.append_nil]
    show Scanner.run? ⟨tokens, .string [] .outside⟩ (cs ++ ['\x22']) = _
    rw [Scanner.run?_append, hrun]
    simp [Scanner.run?, Scanner.step?, Scanner.stringStep?, hchars]
  | @unpaired units cs h hpairs =>
    have hchars : joinPairs units.reverse [] = none := by
      rw [Option.eq_none_iff_forall_ne_some]
      intro joined hjoined
      exact hpairs (List.reverse_reverse units ▸ paired_of_joinPairs hjoined)
    show Scanner.run? ⟨tokens, .string [] .outside⟩ (cs ++ ['\x22']) = _
    rw [Scanner.run?_append, h.run?, List.append_nil]
    simp [Scanner.run?, Scanner.step?, Scanner.stringStep?, hchars]
  | null | yes | no | number => cases hword

/-- Such a text starts with a character that ends a word. -/
theorem Token.Text.head_of_not_isWord {token : Token} {text : List Char} (h : token.Text text)
    (hword : token.isWord = false) : ∃ c rest, text = c :: rest ∧ isWordChar c = false := by
  cases h with
  | openBrace | closeBrace | openBracket | closeBracket | colon | comma | string | unpaired =>
    exact ⟨_, _, rfl, rfl⟩
  | null | yes | no | number => cases hword

/-! ## Scanning a whole text -/

namespace Scanner

/-- The scanner has found the tokens, last one first; it may still hold the last one as a word. -/
inductive Stands : List Token → Scanner → Prop
  | between (tokens : List Token) : Stands tokens ⟨tokens, .between⟩
  | word {token : Token} {chars : List Char} (tokens : List Token)
      (h : word? chars.reverse = some token) : Stands (token :: tokens) ⟨tokens, .word chars⟩

variable {tokens : List Token} {s : Scanner}

theorem Stands.finish? (h : Stands tokens s) : s.finish? = some tokens.reverse := by
  cases h with
  | between => rfl
  | word tokens h => simp only [Scanner.finish?, h, Option.map_some]

/-- A character that belongs to no word puts a word away, if there is one. -/
theorem Stands.step?_of_not_isWordChar (h : Stands tokens s) {c : Char}
    (hc : isWordChar c = false) :
    s.step? c = step? ⟨tokens, .between⟩ c := by
  cases h with
  | between => rfl
  | word tokens h => simp only [step?, hc, Bool.false_eq_true, if_false, h]

theorem Stands.run?_of_not_isWordChar (h : Stands tokens s) {c : Char} (hc : isWordChar c = false)
    (cs : List Char) : s.run? (c :: cs) = run? ⟨tokens, .between⟩ (c :: cs) := by
  rw [run?, run?, h.step?_of_not_isWordChar hc]

theorem step?_of_isBlank {c : Char} (h : isBlank c) :
    step? ⟨tokens, .between⟩ c = some ⟨tokens, .between⟩ := by
  simp only [isBlank, Bool.or_eq_true, decide_eq_true_eq] at h
  obtain ((rfl | rfl) | rfl) | rfl := h <;> rfl

theorem isWordChar_of_isBlank {c : Char} (h : isBlank c) : isWordChar c = false := by
  simp only [isBlank, Bool.or_eq_true, decide_eq_true_eq] at h
  obtain ((rfl | rfl) | rfl) | rfl := h <;> rfl

/-- Blanks change nothing, except that they end a word. -/
theorem Stands.exists_run?_blanks (h : Stands tokens s) {blanks : List Char}
    (hblanks : Blanks blanks) :
    ∃ s', s.run? blanks = some s' ∧ Stands tokens s' ∧
      (s.mode = .between → s'.mode = .between) := by
  induction blanks generalizing s with
  | nil => exact ⟨s, rfl, h, id⟩
  | cons c cs ih =>
    obtain ⟨hc, hcs⟩ := List.forall_mem_cons.1 hblanks
    obtain ⟨s', hrun, hstands, hmode⟩ := ih (.between tokens) hcs
    refine ⟨s', ?_, hstands, fun _ => hmode rfl⟩
    rw [h.run?_of_not_isWordChar (isWordChar_of_isBlank hc), run?_cons (step?_of_isBlank hc), hrun]

theorem start?_of_isWordChar {c : Char} (h : isWordChar c) :
    step? ⟨tokens, .between⟩ c = some ⟨tokens, .word [c]⟩ := by
  have hblank : isBlank c = false := by
    rw [← Bool.not_eq_true]
    intro hblank
    rw [isWordChar_of_isBlank hblank] at h
    cases h
  show start? ⟨tokens, .between⟩ c = _
  rw [start?.eq_def]
  split
  case h_8 => rw [hblank, h]; rfl
  all_goals cases h

theorem run?_word {chars text : List Char} (h : ∀ c ∈ text, isWordChar c) :
    run? ⟨tokens, .word chars⟩ text = some ⟨tokens, .word (text.reverse ++ chars)⟩ := by
  induction text generalizing chars with
  | nil => rfl
  | cons c text ih =>
    obtain ⟨hc, htext⟩ := List.forall_mem_cons.1 h
    have hstep : step? ⟨tokens, .word chars⟩ c = some ⟨tokens, .word (c :: chars)⟩ := if_pos hc
    rw [run?_cons hstep, ih htext, List.reverse_cons, List.append_assoc, List.singleton_append]

/-- The text of a word leaves the scanner holding the word. -/
theorem exists_run?_word (tokens : List Token) {token : Token} {text : List Char}
    (htext : token.Text text) (hword : token.isWord = true) :
    ∃ s', run? ⟨tokens, .between⟩ text = some s' ∧ Stands (token :: tokens) s' := by
  obtain ⟨hread, hne, hchars⟩ := htext.word hword
  obtain ⟨c, cs, rfl⟩ := List.exists_cons_of_ne_nil hne
  obtain ⟨hc, hcs⟩ := List.forall_mem_cons.1 hchars
  refine ⟨⟨tokens, .word (cs.reverse ++ [c])⟩, ?_, .word tokens (by simpa using hread)⟩
  rw [run?_cons (start?_of_isWordChar hc), run?_word hcs]

/-- The scanner gets through the tokens of a text.  Where it still holds a word, the text must not
go on with another. -/
theorem Stands.exists_run? {rest : List Token} {text : List Char} (hrest : Token.Texts rest text)
    (hapart : rest.IsChain Token.Apart) (h : Stands tokens s)
    (hfirst : s.mode = .between ∨ ∀ token ∈ rest.head?, token.isWord = false) :
    ∃ s', s.run? text = some s' ∧ Stands (rest.reverse ++ tokens) s' := by
  induction hrest generalizing tokens s with
  | nil hblanks =>
    obtain ⟨s', hrun, hstands, -⟩ := h.exists_run?_blanks hblanks
    exact ⟨s', hrun, hstands⟩
  | @cons token rest blanks text more hblanks htext hmore ih =>
    obtain ⟨hnext, hapart⟩ := List.isChain_cons.1 hapart
    obtain ⟨s₁, hrun₁, hstands₁, hmode⟩ := h.exists_run?_blanks hblanks
    rw [run?_append, hrun₁, Option.bind_some, run?_append, List.reverse_cons, List.append_assoc,
      List.singleton_append]
    cases hword : token.isWord with
    | false =>
      obtain ⟨c, cs, rfl, hc⟩ := htext.head_of_not_isWord hword
      rw [hstands₁.run?_of_not_isWordChar hc, htext.run?_of_not_isWord hword]
      exact ih hapart (.between _) (.inl rfl)
    | true =>
      -- No word was held, since the chain keeps words apart; the next token is not one either.
      have hbetween : s₁.mode = .between := by
        refine hmode (hfirst.resolve_right fun hne => ?_)
        rw [hne token rfl] at hword
        cases hword
      have hs₁ : s₁ = ⟨tokens, .between⟩ := by
        cases hstands₁ with
        | between => rfl
        | word => cases hbetween
      obtain ⟨s₂, hrun₂, hstands₂⟩ := exists_run?_word tokens htext hword
      rw [hs₁, hrun₂]
      refine ih hapart hstands₂ (.inr fun next hmem => ?_)
      exact (hnext next hmem).resolve_left (by simp [hword])

end Scanner

/-- **The scanner finds the tokens that were written**, whatever blanks and escapes were used. -/
theorem Token.scan?_of_texts {tokens : List Token} {text : List Char} (h : Token.Texts tokens text)
    (hapart : tokens.IsChain Token.Apart) : Token.scan? text = some tokens := by
  obtain ⟨s, hrun, hstands⟩ := Scanner.Stands.exists_run? h hapart (.between []) (.inl rfl)
  rw [Token.scan?, hrun, Option.bind_some, hstands.finish?, List.append_nil, List.reverse_reverse]

end ElmWire.Json
