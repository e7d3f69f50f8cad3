import Mathlib.Data.List.Basic
import ElmWire.Json.Printer
import ElmWire.Proofs.Schema
import ElmWire.Text.Indent

/-!
# TypeScript tokens

The words, string literals and marks that a TypeScript text consists of, as far as declarations of
types need them.  `tokens?` reads a text character by character; a text that has anything else in it
has no tokens.

Texts are put together from smaller ones, and their tokens are too, as long as no two words come to
stand next to each other.

* `Lexes text tokens` — the text has these tokens.
* `Closes text tokens` — and the last of them has ended, so that anything may follow.
* `Separator text tokens` — and the text may follow anything, since it does not start with a word.
* `scan_indent` — **indenting a text does not change its tokens**.
-/

set_option autoImplicit false
namespace ElmWire.TypeScript

/-! ## Scanning -/

/-- A character that is a token by itself. -/
inductive Mark where
  | leftBrace | rightBrace | leftBracket | rightBracket | less | greater
  | colon | semicolon | comma | bar | equals
  deriving DecidableEq

/-- The mark that a character is. -/
def mark? : Char → Option Mark
  | '\x7b' => some .leftBrace
  | '\x7d' => some .rightBrace
  | '[' => some .leftBracket
  | ']' => some .rightBracket
  | '<' => some .less
  | '>' => some .greater
  | ':' => some .colon
  | ';' => some .semicolon
  | ',' => some .comma
  | '|' => some .bar
  | '=' => some .equals
  | _ => none

/-- A token. -/
inductive Token where
  /-- A keyword or a name. -/
  | word (w : String)
  /-- A string literal. -/
  | text (s : String)
  | mark (m : Mark)
  deriving DecidableEq

/-- What the scanner is in the middle of. -/
inductive Scanner where
  | between
  | word (chars : List Char)
  | text (chars : List Char)

/-- The tokens that a character completes, and how to go on, if no word or literal has been
begun. -/
def start (c : Char) : Option (List Token × Scanner) :=
  if isNameChar c then some ([], .word [c])
  else if c = '\x22' then some ([], .text [])
  else if c = ' ' ∨ c = '\n' then some ([], .between)
  else (mark? c).map fun mark => ([.mark mark], .between)

/-- The tokens that a character completes, and how to go on. -/
def Scanner.step : Scanner → Char → Option (List Token × Scanner)
  | .between, c => start c
  | .word chars, c =>
    if isNameChar c then some ([], .word (chars ++ [c]))
    else (start c).map fun next => (.word (String.ofList chars) :: next.1, next.2)
  | .text chars, c =>
    if c = '\x22' then some ([.text (String.ofList chars)], .between)
    else if c = '\\' ∨ c = '\n' then none
    else some ([], .text (chars ++ [c]))

/-- The tokens that characters complete, and how to go on. -/
def scan : Scanner → List Char → Option (List Token × Scanner)
  | scanner, [] => some ([], scanner)
  | scanner, c :: cs =>
    (scanner.step c).bind fun next =>
      (scan next.2 cs).map fun last => (next.1 ++ last.1, last.2)

/-- The token that the end of the text completes. -/
def Scanner.finish : Scanner → Option (List Token)
  | .between => some []
  | .word chars => some [.word (String.ofList chars)]
  | .text _ => none

/-- The tokens of a text. -/
def tokens? (text : String) : Option (List Token) :=
  (scan .between text.toList).bind fun last => last.2.finish.map fun tokens => last.1 ++ tokens

/-- The text has these tokens. -/
def Lexes (text : String) (tokens : List Token) : Prop := tokens? text = some tokens

/-- The text has these tokens, and they have all ended. -/
def Closes (text : String) (tokens : List Token) : Prop :=
  scan .between text.toList = some (tokens, .between)

/-- The text has these tokens, and may be put behind anything. -/
structure Separator (text : String) (tokens : List Token) : Prop where
  closes : Closes text tokens
  head : ∃ c, text.toList.head? = some c ∧ isNameChar c = false

/-! ## Texts one after the other -/

theorem scan_append (scanner : Scanner) (cs ds : List Char) :
    scan scanner (cs ++ ds) = (scan scanner cs).bind fun next =>
      (scan next.2 ds).map fun last => (next.1 ++ last.1, last.2) := by
  induction cs generalizing scanner with
  | nil =>
    rw [List.nil_append, scan, Option.bind_some]
    cases scan scanner ds <;> simp
  | cons c cs ih =>
    rw [List.cons_append, scan, scan, Option.bind_assoc]
    refine congrArg _ (funext fun next => ?_)
    rw [ih, Option.map_bind, Option.bind_map]
    refine congrArg _ (funext fun middle => ?_)
    simp [Function.comp_def, Option.map_map, List.append_assoc]

theorem Closes.lexes {text : String} {tokens : List Token} (h : Closes text tokens) :
    Lexes text tokens := by
  rw [Lexes, tokens?, h]
  simp [Scanner.finish]

theorem Closes.append_lexes {a b : String} {ts us : List Token} (ha : Closes a ts)
    (hb : Lexes b us) : Lexes (a ++ b) (ts ++ us) := by
  rw [Lexes, tokens?] at hb ⊢
  obtain ⟨last, hlast, hfinish⟩ := Option.bind_eq_some_iff.1 hb
  obtain ⟨tokens, htokens, rfl⟩ := Option.map_eq_some_iff.1 hfinish
  rw [String.toList_append, scan_append, ha]
  simp [hlast, htokens]

theorem Closes.append {a b : String} {ts us : List Token} (ha : Closes a ts) (hb : Closes b us) :
    Closes (a ++ b) (ts ++ us) := by
  rw [Closes] at ha hb ⊢
  rw [String.toList_append, scan_append, ha, Option.bind_some, hb]
  rfl

/-- A character that cannot be in a name ends a word. -/
theorem scan_word_of_head {c : Char} (hc : isNameChar c = false) (chars cs : List Char) :
    scan (.word chars) (c :: cs) = (scan .between (c :: cs)).map fun last =>
      (.word (String.ofList chars) :: last.1, last.2) := by
  rw [scan, scan, Scanner.step, Scanner.step, if_neg (by simp [hc]), Option.map_bind,
    Option.bind_map]
  refine congrArg _ (funext fun next => ?_)
  simp [Function.comp_def, Option.map_map]

/-- A separator ends whatever stands in front of it. -/
theorem Lexes.append {a b : String} {ts us : List Token} (ha : Lexes a ts) (hb : Separator b us) :
    Closes (a ++ b) (ts ++ us) := by
  obtain ⟨hcloses, c, hhead, hc⟩ := hb
  rw [Lexes, tokens?] at ha
  obtain ⟨⟨tokens, scanner⟩, hscan, hfinish⟩ := Option.bind_eq_some_iff.1 ha
  obtain ⟨last, hlast, rfl⟩ := Option.map_eq_some_iff.1 hfinish
  rw [Closes, String.toList_append, scan_append, hscan, Option.bind_some]
  cases scanner with
  | between =>
    cases hlast
    rw [hcloses, List.append_nil]
    rfl
  | word chars =>
    cases hlast
    obtain ⟨cs, hb⟩ := List.head?_eq_some_iff.1 hhead
    rw [Closes, hb] at hcloses
    rw [hb, scan_word_of_head hc, hcloses, List.append_assoc]
    rfl
  | text chars => cases hlast

/-! ## Words and literals -/

theorem scan_word {cs : List Char} (h : ∀ c ∈ cs, isNameChar c) (chars : List Char) :
    scan (.word chars) cs = some ([], .word (chars ++ cs)) := by
  induction cs generalizing chars with
  | nil => simp [scan]
  | cons c cs ih =>
    rw [List.forall_mem_cons] at h
    rw [scan, Scanner.step, if_pos h.1, Option.bind_some, ih h.2, List.append_assoc]
    rfl

/-- A name is a word. -/
theorem lexes_name {name : String} (hne : name.toList ≠ []) (h : ∀ c ∈ name.toList, isNameChar c) :
    Lexes name [.word name] := by
  obtain ⟨c, cs, hchars⟩ := List.exists_cons_of_ne_nil hne
  rw [hchars, List.forall_mem_cons] at h
  rw [Lexes, tokens?, hchars, scan, Scanner.step, start, if_pos h.1, Option.bind_some,
    scan_word h.2]
  show some [Token.word (String.ofList (c :: cs))] = _
  rw [← hchars, String.ofList_toList]

theorem chars_of_isNameWith {first : Char → Bool} (hfirst : ∀ c, first c → isNameChar c)
    {name : String} (h : isNameWith first name) :
    name.toList ≠ [] ∧ ∀ c ∈ name.toList, isNameChar c := by
  rw [isNameWith] at h
  cases hchars : name.toList with
  | nil =>
    rw [hchars] at h
    cases h
  | cons c cs =>
    rw [hchars] at h
    simp only [Bool.and_eq_true, Bool.or_eq_true, List.all_eq_true, decide_eq_true_eq] at h
    refine ⟨List.cons_ne_nil c cs, List.forall_mem_cons.2 ⟨?_, h.2⟩⟩
    rcases h.1 with hc | hlarge
    · exact hfirst c hc
    · simp [isNameChar, hlarge]

theorem isNameChar_of_isAlpha {c : Char} (h : c.isAlpha) : isNameChar c := by
  simp [isNameChar, Char.isAlphanum, h]

theorem chars_of_isUpperName {name : String} (h : isUpperName name) :
    name.toList ≠ [] ∧ ∀ c ∈ name.toList, isNameChar c :=
  chars_of_isNameWith (fun _ hc => isNameChar_of_isAlpha (Bool.or_eq_true_iff.2 (.inl hc))) h

theorem lexes_upperName {name : String} (h : isUpperName name) : Lexes name [.word name] :=
  lexes_name (chars_of_isUpperName h).1 (chars_of_isUpperName h).2

theorem lexes_lowerName {name : String} (h : isLowerName name) : Lexes name [.word name] := by
  obtain ⟨hne, hchars⟩ := chars_of_isNameWith
    (fun _ hc => isNameChar_of_isAlpha (Bool.or_eq_true_iff.2 (.inr hc))) h
  exact lexes_name hne hchars

/-- May the character stand for itself in a string literal? -/
def isLiteralChar (c : Char) : Bool := 0x20 ≤ c.toNat && c != '"' && c != '\\'

/-- The letters and the digits come after the characters that are not printed. -/
theorem le_toNat_of_isAlphanum {c : Char} (h : c.isAlphanum) : 48 ≤ c.toNat := by
  rcases Bool.or_eq_true_iff.1 h with h | h
  · rcases Bool.or_eq_true_iff.1 h with h | h
    · have hle : 65 ≤ c.toNat := UInt32.le_iff_toNat_le.1 (of_decide_eq_true h).1
      omega
    · have hle : 97 ≤ c.toNat :=
        UInt32.le_iff_toNat_le.1 (of_decide_eq_true (Bool.and_eq_true_iff.1 h).1)
      omega
  · exact (Char.isDigit_iff_toNat.1 h).1

theorem isLiteralChar_of_isNameChar {c : Char} (h : isNameChar c) : isLiteralChar c := by
  by_contra hc
  simp only [isLiteralChar, Bool.and_eq_true, decide_eq_true_eq, bne_iff_ne, not_and_or,
    not_not] at hc
  rcases hc with (hc | rfl) | rfl
  · simp only [isNameChar, Bool.or_eq_true, beq_iff_eq, decide_eq_true_eq] at h
    rcases h with (h | rfl) | h
    · have hle := le_toNat_of_isAlphanum h
      omega
    · exact absurd hc (by decide)
    · omega
  · exact absurd h (by decide)
  · exact absurd h (by decide)

theorem scan_text {cs : List Char} (h : ∀ c ∈ cs, isLiteralChar c) (chars : List Char) :
    scan (.text chars) cs = some ([], .text (chars ++ cs)) := by
  induction cs generalizing chars with
  | nil => simp [scan]
  | cons c cs ih =>
    rw [List.forall_mem_cons] at h
    have hc := h.1
    simp only [isLiteralChar, Bool.and_eq_true, decide_eq_true_eq, bne_iff_ne] at hc
    have hnewline : c ≠ '\n' := by
      rintro rfl
      exact absurd hc.1.1 (by decide)
    rw [scan, Scanner.step, if_neg hc.1.2, if_neg (by simp [hc.2, hnewline]), Option.bind_some,
      ih h.2, List.append_assoc]
    rfl

theorem escapeChar_of_isLiteralChar {c : Char} (h : isLiteralChar c) : Json.escapeChar c = [c] := by
  have hne : ∀ d : Char, isLiteralChar d = false → c ≠ d := by
    rintro d hd rfl
    rw [hd] at h
    cases h
  simp only [isLiteralChar, Bool.and_eq_true, decide_eq_true_eq] at h
  rw [Json.escapeChar, if_neg (by omega)] <;> exact hne _ (by decide)

/-- A string literal. -/
theorem closes_quote {s : String} (h : ∀ c ∈ s.toList, isLiteralChar c) :
    Closes (Json.quote s) [.text s] := by
  have hescape : s.toList.flatMap Json.escapeChar = s.toList := by
    rw [List.flatMap_congr fun c hc => escapeChar_of_isLiteralChar (h c hc)]
    simp
  rw [Closes, Json.quote, hescape, String.toList_ofList, List.cons_append, scan]
  show ((scan (.text []) (s.toList ++ ['\x22'])).map _) = _
  rw [scan_append, scan_text h]
  show some ([Token.text (String.ofList s.toList)], Scanner.between) = _
  rw [String.ofList_toList]

/-! ## Indenting -/

theorem scan_spaces (n : Nat) (cs : List Char) :
    scan .between (List.replicate n ' ' ++ cs) = scan .between cs := by
  induction n with
  | zero => rfl
  | succ n ih =>
    rw [List.replicate_succ, List.cons_append, scan]
    show (scan .between (List.replicate n ' ' ++ cs)).map _ = _
    rw [ih]
    cases scan .between cs <;> rfl

/-- A line break ends every token that may go on to the next line. -/
theorem scan_newline (scanner : Scanner) {cs ds : List Char}
    (h : scan .between cs = scan .between ds) :
    scan scanner ('\n' :: cs) = scan scanner ('\n' :: ds) := by
  cases scanner with
  | between =>
    rw [scan, scan]
    show (scan .between cs).map _ = (scan .between ds).map _
    rw [h]
  | word chars =>
    rw [scan, scan]
    show (scan .between cs).map _ = (scan .between ds).map _
    rw [h]
  | text chars => rfl

theorem intercalate_append_cons {α : Type} (separator xs l : List α) (rest : List (List α)) :
    separator.intercalate ((xs ++ l) :: rest) = xs ++ separator.intercalate (l :: rest) := by
  cases rest with
  | nil => simp
  | cons next rest => simp [List.intercalate_cons_of_ne_nil, List.append_assoc]

/-- A line with spaces in front of it, unless it is empty. -/
def pad (n : Nat) (line : List Char) : List Char :=
  if line.isEmpty then line else List.replicate n ' ' ++ line

theorem scan_pad (n : Nat) (line : List Char) (rest : List (List Char)) :
    scan .between (['\n'].intercalate (pad n line :: rest)) =
      scan .between (['\n'].intercalate (line :: rest)) := by
  rw [pad]
  split
  · rfl
  · rw [intercalate_append_cons, scan_spaces]

theorem scan_lines (n : Nat) (scanner : Scanner) (first : List Char) (rest : List (List Char)) :
    scan scanner (['\n'].intercalate (first :: rest.map (pad n))) =
      scan scanner (['\n'].intercalate (first :: rest)) := by
  induction rest generalizing scanner first with
  | nil => rfl
  | cons line rest ih =>
    have hrest := (scan_pad n line (rest.map (pad n))).trans (ih .between line)
    rw [List.map_cons, List.intercalate_cons_of_ne_nil (List.cons_ne_nil _ _),
      List.intercalate_cons_of_ne_nil (List.cons_ne_nil _ _), List.append_assoc, List.append_assoc,
      scan_append, scan_append]
    refine congrArg _ (funext fun next => congrArg _ ?_)
    exact scan_newline next.2 hrest

/-- **Indenting a text does not change its tokens.** -/
theorem scan_indent (n : Nat) (scanner : Scanner) (text : String) :
    scan scanner (Text.indent n text).toList = scan scanner text.toList := by
  obtain ⟨first, rest, hlines⟩ := List.exists_cons_of_ne_nil (Text.split_ne_nil '\n' text.toList)
  have hindent : (Text.indent n text).toList = ['\n'].intercalate (first :: rest.map (pad n)) := by
    rw [Text.indent, Text.lines, Text.pieces, hlines]
    show (String.intercalate "\n" (String.ofList first :: (rest.map String.ofList).map fun line =>
      if line.isEmpty then line else Text.spaces n ++ line)).toList = _
    rw [String.toList_intercalate, List.map_cons, List.map_map, List.map_map,
      String.toList_ofList (l := first)]
    refine congrArg (fun lines => ['\n'].intercalate (first :: lines)) ?_
    refine List.map_congr_left fun line _ => ?_
    rw [Function.comp_apply, Function.comp_apply, pad, Text.spaces]
    cases line with
    | nil => rfl
    | cons c line => simp
  rw [hindent, scan_lines, ← hlines, Text.intercalate_split]

theorem Lexes.indent {text : String} {tokens : List Token} (h : Lexes text tokens) (n : Nat) :
    Lexes (Text.indent n text) tokens := by
  rw [Lexes, tokens?, scan_indent]
  exact h

end ElmWire.TypeScript
