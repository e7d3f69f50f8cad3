import ElmWire.Proofs.Elm.CodecText
import ElmWire.Proofs.Layout.Trailing

/-!
# Lexemes of expressions

The tokens of `ElmWire.Proofs.Elm.Token` are those of code in which strings are names.  Here strings
may be any, and expressions may be put together in all ways.

* `scan` — the runs of characters of a text: string literals, with their escapes resolved, and runs
  of characters that belong together.  A point belongs to a name, or it stands right behind a
  closing parenthesis or brace; elsewhere it would start a function, which expressions here are not.
* `Lexeme` — words, fields that are looked up, strings and marks.  What is none of them is `junk`.
* `Expr.ofWord?` — a word is a number, or a path: the capitalised names in front of it are modules,
  then comes a name, and what follows are fields that are looked up.

Of letters beyond ASCII all are taken for small ones.
-/

set_option autoImplicit false
namespace ElmWire.Elm

open Text

/-! ## Names -/

/-- The words that are no names. -/
def keywords : List String := ["if", "then", "else", "case", "of", "let", "in", "type", "module",
  "where", "import", "exposing", "as", "port"]

/-- Is it a name of a variable or a field? -/
def isSmall (name : String) : Bool :=
  isIdentifier name && name.toList.head?.all (fun c => !c.isUpper && c != '_') &&
    !keywords.contains name

theorem isIdentifier_of_isSmall {name : String} (h : isSmall name = true) :
    isIdentifier name = true :=
  (Bool.and_eq_true_iff.1 (Bool.and_eq_true_iff.1 h).1).1

theorem isCapital_of_isSmall {name : String} (h : isSmall name = true) :
    isCapital name = false := by
  have hidentifier := (chars_of_isIdentifier (isIdentifier_of_isSmall h)).1
  rw [isSmall, Bool.and_eq_true, Bool.and_eq_true] at h
  obtain ⟨⟨-, hhead⟩, -⟩ := h
  obtain ⟨c, cs, hcons⟩ := List.exists_cons_of_ne_nil (mt String.toList_eq_nil_iff.1 hidentifier)
  rw [hcons] at hhead
  obtain ⟨hupper, -⟩ : c.isUpper = false ∧ _ := by simpa using hhead
  simp [isCapital, hcons, hupper]

/-- Are they the pieces of a name with the names of modules before it? -/
def isQualifiedName : List String → Bool
  | [] => false
  | [name] => isCapital name || isSmall name
  | qualifier :: rest => isCapital qualifier && isQualifiedName rest

/-- Are they the pieces of a name, with the names of modules before it and with fields that are
looked up behind it? -/
def isPath : List String → Bool
  | [] => false
  | [name] => isCapital name || isSmall name
  | name :: rest => if isCapital name then isPath rest else isSmall name && rest.all isSmall

/-- What a path stands for.  All capitalised pieces in front of it belong to the name. -/
def Expr.ofPath (path : List String) : Expr :=
  match path.dropWhile isCapital with
  | [] => .var (".".intercalate path)
  | name :: fields =>
    fields.foldl .access (.var (".".intercalate (path.takeWhile isCapital ++ [name])))

/-- What a word stands for, if it is a number or a path. -/
def Expr.ofWord? (w : String) : Option Expr :=
  if w.toList.head?.any Char.isDigit then
    if toString (Decimal.ofDigits w.toList) = w then some (.int (Decimal.ofDigits w.toList))
    else none
  else if isPath (pieces '.' w) then some (.ofPath (pieces '.' w))
  else none

/-! ## Runs -/

/-- A run of characters. -/
inductive Run where
  | code (cs : List Char)
  /-- A string literal; escapes that Elm does not have are left open. -/
  | literal (cs : List (Option Char))
  | junk

/-- Puts a character in front of the first run. -/
def consCode (c : Char) : List Run → List Run
  | .code cs :: rest => .code (c :: cs) :: rest
  | rest => .code [c] :: rest

/-- Puts a character in front of the literal that comes first. -/
def consLiteral (c : Option Char) : List Run → List Run
  | .literal cs :: rest => .literal (c :: cs) :: rest
  | rest => rest

/-- The character that an escape stands for.  Those with a character code are left out. -/
def unescape? : Char → Option Char
  | 'n' => some '\n'
  | 'r' => some '\r'
  | 't' => some '\t'
  | '\x22' => some '\x22'
  | '\x27' => some '\x27'
  | '\\' => some '\\'
  | _ => none

/-- A point that does not belong to anything. -/
def strayPoint (cs : List Char) : List Run := if cs.head? = some '.' then [.junk] else []

/-- The runs of a text, in a string literal or in front of code. -/
def scan : Bool → List Char → List Run
  | false, [] => []
  | false, c :: rest =>
    if c = '\x22' then scan true rest
    else if isBlank c then strayPoint rest ++ scan false rest
    else if rest.head?.any (joins c) then consCode c (scan false rest)
    else if c = ')' ∨ c = '\x7d' then .code [c] :: scan false rest
    else .code [c] :: (strayPoint rest ++ scan false rest)
  | true, [] => [.junk]
  | true, '\x22' :: rest => .literal [] :: (strayPoint rest ++ scan false rest)
  | true, '\\' :: c :: rest => consLiteral (unescape? c) (scan true rest)
  | true, c :: rest => consLiteral (if c = '\n' then none else some c) (scan true rest)

/-! ## Lexemes -/

/-- A word, the fields that are looked up behind a bracket, a string or a mark. -/
inductive Lexeme where
  | word (w : String)
  | fields (names : List String)
  | string (s : String)
  | mark (m : Mark)
  | junk
  deriving DecidableEq

/-- The lexeme that a run is. -/
def Lexeme.ofRun : Run → Lexeme
  | .code ('.' :: cs) =>
    let names := (split '.' cs).map String.ofList
    if names.all isSmall then .fields names else .junk
  | .code cs =>
    match Token.ofRun cs with
    | .mark m => .mark m
    | .word w => if w = "_" ∨ (Expr.ofWord? w).isSome then .word w else .junk
  | .literal cs =>
    match cs.mapM id with
    | some cs => .string (String.ofList cs)
    | none => .junk
  | .junk => .junk

/-- The lexemes of a text. -/
def lexemes (cs : List Char) : List Lexeme := (scan false cs).map Lexeme.ofRun

/-- A point does not come first. -/
def NoPoint (cs : List Char) : Prop := cs.head? ≠ some '.'

theorem strayPoint_eq_nil {cs : List Char} (h : NoPoint cs) : strayPoint cs = [] := if_neg h

theorem noPoint_of_boundary {cs : List Char} (h : Boundary cs) : NoPoint cs := by
  intro hhead
  rw [Boundary, hhead] at h
  exact absurd h (by decide)

theorem lexemes_space {cs : List Char} (h : NoPoint cs) : lexemes (' ' :: cs) = lexemes cs := by
  rw [lexemes, scan, if_neg (by decide), if_pos (by decide), strayPoint_eq_nil h]
  rfl

/-- A run that does not start with a point is a token. -/
theorem Lexeme.ofRun_code {cs : List Char} (h : NoPoint cs) :
    Lexeme.ofRun (.code cs) = match Token.ofRun cs with
      | .mark m => .mark m
      | .word w => if w = "_" ∨ (Expr.ofWord? w).isSome then .word w else .junk := by
  rw [Lexeme.ofRun]
  rintro rest rfl
  exact h rfl

theorem lexemes_mark {c : Char} {m : Mark} (hm : Token.ofRun [c] = .mark m)
    (hc : (c != '\x22' && !isBlank c && !isWordChar c && !isMarkChar c) = true) {cs : List Char}
    (hcs : NoPoint cs ∨ c = ')' ∨ c = '\x7d') : lexemes (c :: cs) = .mark m :: lexemes cs := by
  simp only [Bool.and_eq_true, bne_iff_ne, ne_eq, Bool.not_eq_true'] at hc
  obtain ⟨⟨⟨hquote, hblank⟩, hword⟩, hmark⟩ := hc
  have hstops : cs.head?.any (joins c) = false := by
    cases cs with
    | nil => rfl
    | cons d cs => simp [joins, hword, hmark]
  have hpoint : NoPoint [c] := by
    rintro ⟨⟩
    exact absurd hword (by decide)
  have hlexeme : Lexeme.ofRun (.code [c]) = .mark m := by rw [Lexeme.ofRun_code hpoint, hm]
  rw [lexemes, scan, if_neg hquote, hblank, hstops, if_neg Bool.false_ne_true,
    if_neg Bool.false_ne_true]
  split
  · rw [List.map_cons, hlexeme, lexemes]
  · next hclosing =>
    rw [strayPoint_eq_nil (hcs.resolve_right hclosing), List.nil_append, List.map_cons, hlexeme,
      lexemes]

/-- Behind a string or a list, a point is a stray one. -/
def stray (cs : List Char) : List Lexeme := (strayPoint cs).map Lexeme.ofRun

theorem lexemes_rightBracket (cs : List Char) :
    lexemes (']' :: cs) = .mark .rightBracket :: (stray cs ++ lexemes cs) := by
  have hstops : cs.head?.any (joins ']') = false := by
    cases cs with
    | nil => rfl
    | cons d cs => rfl
  rw [lexemes, scan, if_neg (by decide), if_neg (by decide), hstops, if_neg Bool.false_ne_true,
    if_neg (by decide), List.map_cons, List.map_append]
  rfl

theorem lexemes_arrow {cs : List Char} (h : NoPoint cs) :
    lexemes (' ' :: '-' :: '>' :: ' ' :: cs) = .mark .arrow :: lexemes cs := by
  rw [← lexemes_space h]
  rfl

theorem lexemes_pipe {cs : List Char} (h : NoPoint cs) :
    lexemes (' ' :: '|' :: '>' :: ' ' :: cs) = .mark .pipe :: lexemes cs := by
  rw [← lexemes_space h]
  rfl

theorem lexemes_equals {cs : List Char} (h : NoPoint cs) :
    lexemes (' ' :: '=' :: ' ' :: cs) = .mark .equals :: lexemes cs := by
  rw [← lexemes_space h]
  rfl

theorem scan_word {c : Char} {w cs : List Char} (h : ∀ d ∈ c :: w, isWordChar d = true)
    (hcs : Boundary cs) : scan false (c :: w ++ cs) = .code (c :: w) :: scan false cs := by
  have hplain : ∀ c : Char, isWordChar c = true → c ≠ '\x22' ∧ ¬(c = ')' ∨ c = '\x7d') := by
    intro c hc
    refine ⟨?_, ?_⟩
    · rintro rfl
      exact absurd hc (by decide)
    · rintro (rfl | rfl) <;> exact absurd hc (by decide)
  induction w generalizing c with
  | nil =>
    have hc : isWordChar c = true := h c List.mem_cons_self
    have hstops : cs.head?.any (joins c) = false := by
      cases cs with
      | nil => rfl
      | cons d cs => exact joins_eq_false hcs c
    rw [List.singleton_append, scan, if_neg (hplain c hc).1, isBlank_eq_false_of_isWordChar hc,
      hstops, if_neg Bool.false_ne_true, if_neg Bool.false_ne_true, if_neg (hplain c hc).2,
      strayPoint_eq_nil (noPoint_of_boundary hcs)]
    rfl
  | cons d w ih =>
    obtain ⟨hc, hw⟩ := List.forall_mem_cons.1 h
    have hd : isWordChar d = true := hw d List.mem_cons_self
    have hjoins : (d :: w ++ cs).head?.any (joins c) = true := by simp [joins, hc, hd]
    rw [List.cons_append, scan, if_neg (hplain c hc).1, isBlank_eq_false_of_isWordChar hc,
      if_neg Bool.false_ne_true, if_pos hjoins, ih hw]
    rfl

/-- A word in front of what does not go on with it. -/
theorem lexemes_word {w : String} (h : IsToken w) {cs : List Char} (hcs : Boundary cs) :
    lexemes (w.toList ++ cs) = .ofRun (.code w.toList) :: lexemes cs := by
  obtain ⟨c, rest, hcons⟩ := List.exists_cons_of_ne_nil (mt String.toList_eq_nil_iff.1 h.ne_empty)
  have hchars := h.chars
  rw [hcons] at hchars ⊢
  rw [lexemes, scan_word hchars hcs, List.map_cons, lexemes]

/-! ### Strings -/

/-- Does Elm have the escape for the character, if one is needed? -/
def isPlainChar (c : Char) : Bool := 32 ≤ c.toNat || c == '\n' || c == '\r' || c == '\t'

/-- Can the string be written with the escapes of Elm? -/
def isPlain (s : String) : Bool := s.toList.all isPlainChar

theorem scan_ordinary {c : Char} (hquote : c ≠ '\x22') (hslash : c ≠ '\\') (hline : c ≠ '\n')
    (cs : List Char) : scan true (c :: cs) = consLiteral (some c) (scan true cs) := by
  rw [scan]
  · rw [if_neg hline]
  · exact hquote
  · exact fun _ _ heq _ => hslash heq

theorem scan_ordinaries {ds : List Char} (h : ∀ d ∈ ds, d ≠ '\x22' ∧ d ≠ '\\' ∧ d ≠ '\n')
    (cs : List Char) : scan true (ds ++ cs) = (ds.map some).foldr consLiteral (scan true cs) := by
  induction ds with
  | nil => rfl
  | cons d ds ih =>
    obtain ⟨⟨hquote, hslash, hline⟩, hds⟩ := List.forall_mem_cons.1 h
    rw [List.cons_append, scan_ordinary hquote hslash hline, ih hds]
    rfl

/-- How a character is read back: as itself, or with an escape that Elm does not have. -/
theorem scan_escapeChar (c : Char) : ∃ xs : List (Option Char),
    (∀ cs, scan true (Json.escapeChar c ++ cs) = xs.foldr consLiteral (scan true cs)) ∧
      if isPlainChar c then xs = [some c] else none ∈ xs := by
  have hhex : ∀ n < 32, ∀ d ∈ Json.hex4 n, d ≠ '\x22' ∧ d ≠ '\\' ∧ d ≠ '\n' := by
    have hall : ∀ n < 32,
        (Json.hex4 n).all (fun d => d != '\x22' && (d != '\\' && d != '\n')) = true := by decide
    intro n hn d hd
    simpa using List.all_eq_true.1 (hall n hn) d hd
  fun_cases Json.escapeChar c with
  | case1 => exact ⟨[some '\x22'], fun _ => rfl, rfl⟩
  | case2 => exact ⟨[some '\\'], fun _ => rfl, rfl⟩
  | case3 => exact ⟨[none], fun _ => rfl, List.mem_cons_self⟩
  | case4 => exact ⟨[some '\t'], fun _ => rfl, rfl⟩
  | case5 => exact ⟨[some '\n'], fun _ => rfl, rfl⟩
  | case6 => exact ⟨[none], fun _ => rfl, List.mem_cons_self⟩
  | case7 => exact ⟨[some '\r'], fun _ => rfl, rfl⟩
  | case8 c hquote hslash _ htab hline _ hreturn hcontrol =>
    refine ⟨none :: (Json.hex4 c.toNat).map some, fun cs => ?_, ?_⟩
    · show consLiteral none (scan true (Json.hex4 c.toNat ++ cs)) = _
      rw [scan_ordinaries (hhex c.toNat hcontrol)]
      rfl
    · have hplain : isPlainChar c = false := by
        have hlow : ¬32 ≤ c.toNat := Nat.not_le.2 hcontrol
        simp_all [isPlainChar]
      rw [hplain]
      exact List.mem_cons_self
  | case9 c hquote hslash _ _ hline _ _ hcontrol =>
    have hplain : isPlainChar c = true := by simp [isPlainChar, Nat.not_lt.1 hcontrol]
    exact ⟨[some c], fun cs => scan_ordinary hquote hslash hline cs, by rw [hplain]; rfl⟩

theorem Lexeme.ofRun_literal (cs : List Char) :
    Lexeme.ofRun (.literal (cs.map some)) = .string (String.ofList cs) := by
  have hall : (cs.map some).mapM id = some cs := by
    induction cs with
    | nil => rfl
    | cons c cs ih => simp [List.mapM_cons, ih]
  rw [Lexeme.ofRun, hall]

theorem Lexeme.ofRun_literal_none {cs : List (Option Char)} (h : none ∈ cs) :
    Lexeme.ofRun (.literal cs) = .junk := by
  have hall : cs.mapM id = none := by
    induction cs with
    | nil => simp at h
    | cons c cs ih =>
      cases c with
      | none => rfl
      | some c =>
        have hmem : none ∈ cs := by simpa using h
        simp [List.mapM_cons, ih hmem]
  rw [Lexeme.ofRun, hall]

/-- How a string literal is read back. -/
theorem lexemes_quote (s : String) (cs : List Char) :
    lexemes ((Json.quote s).toList ++ cs) =
      (if isPlain s then .string s else .junk) :: (stray cs ++ lexemes cs) := by
  have hbody : ∀ ds : List Char, ∃ xs : List (Option Char),
      scan true (ds.flatMap Json.escapeChar ++ '\x22' :: cs) =
        .literal xs :: (strayPoint cs ++ scan false cs) ∧
      if ds.all isPlainChar then xs = ds.map some else none ∈ xs := by
    intro ds
    induction ds with
    | nil => exact ⟨[], rfl, rfl⟩
    | cons d ds ih =>
      obtain ⟨xs, hxs, hplain⟩ := ih
      obtain ⟨ys, hys, hchar⟩ := scan_escapeChar d
      refine ⟨ys ++ xs, ?_, ?_⟩
      · have hpush : ∀ (ys xs : List (Option Char)) (rest : List Run),
            ys.foldr consLiteral (.literal xs :: rest) = .literal (ys ++ xs) :: rest := by
          intro ys xs rest
          induction ys with
          | nil => rfl
          | cons y ys ih => rw [List.foldr_cons, ih]; rfl
        rw [List.flatMap_cons, List.append_assoc, hys, hxs, hpush]
      · rw [List.all_cons]
        cases hd : isPlainChar d with
        | false => simp_all
        | true =>
          rw [hd, if_pos rfl] at hchar
          rw [hchar]
          cases hall : ds.all isPlainChar with
          | false => simp_all
          | true => simp_all
  obtain ⟨xs, hxs, hplain⟩ := hbody s.toList
  have htext : (Json.quote s).toList ++ cs =
      '\x22' :: (s.toList.flatMap Json.escapeChar ++ '\x22' :: cs) := by simp [Json.quote]
  rw [lexemes, htext, scan, if_pos rfl, hxs, List.map_cons, List.map_append]
  refine congrArg (· :: _) ?_
  rw [isPlain]
  cases hall : s.toList.all isPlainChar with
  | true =>
    rw [hall, if_pos rfl] at hplain
    rw [hplain, Lexeme.ofRun_literal, String.ofList_toList, if_pos rfl]
  | false =>
    rw [hall, if_neg Bool.false_ne_true] at hplain
    rw [Lexeme.ofRun_literal_none hplain, if_neg Bool.false_ne_true]

/-! ### Words -/

/-- The text of fields that are looked up. -/
def lookups (fields : List String) : String := String.join (fields.map ("." ++ ·))

theorem append_lookups_nil (s : String) : s ++ lookups [] = s := by simp [lookups]

theorem isToken_append {w v : String} (hw : IsToken w) (hv : ∀ c ∈ v.toList, isWordChar c = true) :
    IsToken (w ++ v) := by
  refine ⟨by simp [hw.ne_empty], fun c hc => ?_⟩
  rw [String.toList_append, List.mem_append] at hc
  exact hc.elim (hw.chars c) (hv c)

theorem chars_lookups {fields : List String} (h : fields.all isSmall = true) :
    ∀ c ∈ (lookups fields).toList, isWordChar c = true := by
  induction fields with
  | nil => simp [lookups]
  | cons field rest ih =>
    obtain ⟨hfield, hrest⟩ := Bool.and_eq_true_iff.1 h
    have htoken := isToken_of_isIdentifier (isIdentifier_of_isSmall hfield)
    intro c hc
    have hc : c ∈ '.' :: field.toList ++ (lookups rest).toList := by simpa [lookups] using hc
    rw [List.cons_append, List.mem_cons, List.mem_append] at hc
    rcases hc with rfl | hc | hc
    · rfl
    · exact htoken.chars c hc
    · exact ih hrest c hc

theorem pieces_of_isIdentifier {name : String} (h : isIdentifier name = true) :
    pieces '.' name = [name] := by
  have hpieces := pieces_intercalate (List.cons_ne_nil name []) (List.forall_mem_singleton.2 h)
  rwa [String.intercalate_singleton] at hpieces

theorem lookups_cons (field : String) (rest : List String) :
    lookups (field :: rest) = "." ++ field ++ lookups rest := by
  simp [lookups]

/-- The pieces of a word with fields behind it. -/
theorem pieces_append_lookups (w : String) {fields : List String}
    (h : fields.all isSmall = true) :
    pieces '.' (w ++ lookups fields) = pieces '.' w ++ fields := by
  induction fields generalizing w with
  | nil => simp [lookups]
  | cons field rest ih =>
    obtain ⟨hfield, hrest⟩ := Bool.and_eq_true_iff.1 h
    have hcons : w ++ lookups (field :: rest) = w ++ "." ++ field ++ lookups rest := by
      simp [lookups_cons, String.append_assoc]
    have hpieces : pieces '.' (w ++ "." ++ field) = pieces '.' w ++ pieces '.' field := by
      rw [pieces, pieces, pieces, ← List.map_append, ← split_append_cons]
      simp
    rw [hcons, ih _ hrest, hpieces, pieces_of_isIdentifier (isIdentifier_of_isSmall hfield),
      List.append_assoc, List.singleton_append]

theorem isIdentifier_of_mem_qualified {path : List String} (h : isQualifiedName path = true) :
    path ≠ [] ∧ ∀ name ∈ path, isIdentifier name = true := by
  fun_induction isQualifiedName path with
  | case1 => cases h
  | case2 name =>
    refine ⟨List.cons_ne_nil _ _, List.forall_mem_singleton.2 ?_⟩
    exact (Bool.or_eq_true_iff.1 h).elim isIdentifier_of_isCapital isIdentifier_of_isSmall
  | case3 qualifier rest hrest ih =>
    obtain ⟨hcapital, hpath⟩ := Bool.and_eq_true_iff.1 h
    exact ⟨List.cons_ne_nil _ _,
      List.forall_mem_cons.2 ⟨isIdentifier_of_isCapital hcapital, (ih hpath).2⟩⟩

/-- A qualified name is capitalised as a whole, or small behind its qualifiers. -/
theorem cases_isQualifiedName {path : List String} (h : isQualifiedName path = true) :
    (path ≠ [] ∧ ∀ name ∈ path, isCapital name = true) ∨
      ∃ qualifiers name, path = qualifiers ++ [name] ∧
        (∀ qualifier ∈ qualifiers, isCapital qualifier = true) ∧ isSmall name = true := by
  fun_induction isQualifiedName path with
  | case1 => cases h
  | case2 name =>
    rcases Bool.or_eq_true_iff.1 h with hcapital | hsmall
    · exact .inl ⟨List.cons_ne_nil _ _, List.forall_mem_singleton.2 hcapital⟩
    · exact .inr ⟨[], name, rfl, List.forall_mem_nil _, hsmall⟩
  | case3 qualifier rest hrest ih =>
    obtain ⟨hcapital, hpath⟩ := Bool.and_eq_true_iff.1 h
    rcases ih hpath with ⟨-, hall⟩ | ⟨qualifiers, name, rfl, hall, hsmall⟩
    · exact .inl ⟨List.cons_ne_nil _ _, List.forall_mem_cons.2 ⟨hcapital, hall⟩⟩
    · exact .inr ⟨qualifier :: qualifiers, name, rfl, List.forall_mem_cons.2 ⟨hcapital, hall⟩,
        hsmall⟩

theorem isPath_of_all_isSmall {fields : List String} (hne : fields ≠ [])
    (h : fields.all isSmall = true) : isPath fields = true := by
  fun_cases isPath fields with
  | case1 => exact absurd rfl hne
  | case2 name => simp_all
  | case3 name rest hrest hcapital => simp_all [isCapital_of_isSmall]
  | case4 name rest hrest hcapital => simp_all

/-- Qualifiers in front of a path belong to it. -/
theorem isPath_append_capitals {qualifiers path : List String}
    (h : ∀ name ∈ qualifiers, isCapital name = true) (hpath : isPath path = true) :
    isPath (qualifiers ++ path) = true := by
  induction qualifiers with
  | nil => exact hpath
  | cons qualifier rest ih =>
    obtain ⟨hcapital, hrest⟩ := List.forall_mem_cons.1 h
    rw [List.cons_append, isPath, if_pos hcapital, ih hrest]
    intro hnil
    rw [(List.append_eq_nil_iff.1 hnil).2] at hpath
    cases hpath

theorem isPath_append {path : List String} (h : isQualifiedName path = true)
    {fields : List String} (hfields : fields.all isSmall = true) :
    isPath (path ++ fields) = true := by
  rcases cases_isQualifiedName h with ⟨hne, hall⟩ | ⟨qualifiers, name, rfl, hall, hname⟩
  · by_cases hnil : fields = []
    · subst hnil
      rw [List.append_nil, ← List.dropLast_append_getLast hne]
      have hlast : isCapital (path.getLast hne) = true := hall _ (List.getLast_mem hne)
      refine isPath_append_capitals (fun name hmem => hall name (List.dropLast_subset _ hmem)) ?_
      rw [isPath, hlast, Bool.true_or]
    · exact isPath_append_capitals hall (isPath_of_all_isSmall hnil hfields)
  · rw [List.append_assoc, List.singleton_append]
    refine isPath_append_capitals hall (isPath_of_all_isSmall (List.cons_ne_nil _ _) ?_)
    rw [List.all_cons, hname, hfields, Bool.true_and]

/-! ### Paths -/

theorem Expr.ofPath_small {qualifiers : List String}
    (h : ∀ name ∈ qualifiers, isCapital name = true) {name : String} (hname : isSmall name = true)
    (fields : List String) :
    Expr.ofPath (qualifiers ++ name :: fields) =
      fields.foldl .access (.var (".".intercalate (qualifiers ++ [name]))) := by
  have hnot : ¬isCapital name = true := by simp [isCapital_of_isSmall hname]
  rw [Expr.ofPath, List.dropWhile_append_of_pos h, List.takeWhile_append_of_pos h,
    List.dropWhile_cons_of_neg hnot, List.takeWhile_cons_of_neg hnot, List.append_nil]

theorem Expr.ofPath_capital {path : List String} (h : ∀ name ∈ path, isCapital name = true) :
    Expr.ofPath path = .var (".".intercalate path) := by
  have hdrop : path.dropWhile isCapital = [] := List.dropWhile_eq_nil_iff.2 h
  rw [Expr.ofPath, hdrop]

/-- A word whose pieces are names starts with a letter. -/
theorem exists_head_of_isQualified {w : String}
    (h : ∀ name ∈ pieces '.' w, isIdentifier name = true) :
    ∃ name cs, isIdentifier name = true ∧ w.toList = name.toList ++ cs := by
  obtain ⟨piece, rest, hsplit⟩ := List.exists_cons_of_ne_nil (split_ne_nil '.' w.toList)
  have hpiece : isIdentifier (String.ofList piece) = true :=
    h _ (List.mem_map_of_mem (hsplit ▸ List.mem_cons_self))
  have hword := intercalate_split '.' w.toList
  rw [hsplit] at hword
  cases rest with
  | nil => exact ⟨_, [], hpiece, by simpa using hword.symm⟩
  | cons next rest =>
    rw [List.intercalate_cons_cons] at hword
    exact ⟨_, _, hpiece, by rw [← hword, String.toList_ofList, List.append_assoc]⟩

/-- A word that starts with a name does not start with a digit or a point. -/
theorem head_of_exists {w : String}
    (h : ∃ name cs, isIdentifier name = true ∧ w.toList = name.toList ++ cs) (v : String) :
    (w ++ v).toList.head?.any Char.isDigit = false ∧ NoPoint (w ++ v).toList := by
  obtain ⟨name, cs, hname, hw⟩ := h
  have htext : (w ++ v).toList = name.toList ++ (cs ++ v.toList) := by simp [hw]
  obtain ⟨hne, hchars⟩ := chars_of_isIdentifier hname
  obtain ⟨c, rest, hcons⟩ := List.exists_cons_of_ne_nil (mt String.toList_eq_nil_iff.1 hne)
  refine ⟨by rw [htext]; exact head?_of_isIdentifier hname _, ?_⟩
  rw [htext, hcons]
  rintro ⟨⟩
  exact absurd (hchars '.' (hcons ▸ List.mem_cons_self)) (by decide)

/-- The text is read as a word that stands for the expression. -/
structure IsWordFor (w : String) (e : Expr) : Prop where
  token : IsToken w
  ofWord? : Expr.ofWord? w = some e
  lexeme : Lexeme.ofRun (.code w.toList) = .word w

/-- A name is such a word, also with fields behind it. -/
theorem isWordFor_path {name : String} (h : isQualifiedName (pieces '.' name) = true)
    {fields : List String} (hfields : fields.all isSmall = true) :
    IsWordFor (name ++ lookups fields) (.ofPath (pieces '.' name ++ fields)) := by
  have hpieces := (isIdentifier_of_mem_qualified h).2
  obtain ⟨hhead, hpoint⟩ := head_of_exists (exists_head_of_isQualified hpieces) (lookups fields)
  have hname : IsToken name := by
    obtain ⟨hne, hchars⟩ := chars_of_isQualified (List.all_eq_true.2 hpieces)
    exact ⟨hne, hchars⟩
  have htoken := isToken_append hname (chars_lookups hfields)
  have hword : Expr.ofWord? (name ++ lookups fields) =
      some (.ofPath (pieces '.' name ++ fields)) := by
    rw [Expr.ofWord?, hhead, if_neg Bool.false_ne_true, pieces_append_lookups name hfields,
      if_pos (isPath_append h hfields)]
  refine ⟨htoken, hword, ?_⟩
  rw [Lexeme.ofRun_code hpoint, Token.ofRun_word htoken.chars, String.ofList_toList]
  exact if_pos (.inr (by rw [hword]; rfl))

theorem isToken_toString (n : Nat) : IsToken (toString n) := by
  refine ⟨Nat.repr_ne_empty, fun c hc => isWordChar_of_isNameChar ?_⟩
  simp [isNameChar, Char.isAlphanum, Json.isDigit_toString n c hc]

/-- A number starts with a digit, whatever stands behind it. -/
theorem head_toString (n : Nat) (v : String) :
    (toString n ++ v).toList.head?.any Char.isDigit = true ∧ NoPoint (toString n ++ v).toList := by
  obtain ⟨c, rest, hcons⟩ : ∃ c rest, (toString n).toList = c :: rest :=
    List.exists_cons_of_ne_nil (Decimal.toList_toString n ▸ Nat.toDigits_ne_nil)
  have hdigit : c.isDigit = true := Json.isDigit_toString n c (hcons ▸ List.mem_cons_self)
  rw [String.toList_append, hcons]
  refine ⟨hdigit, ?_⟩
  rintro ⟨⟩
  exact absurd hdigit (by decide)

/-- A number is such a word. -/
theorem isWordFor_toString (n : Nat) : IsWordFor (toString n) (.int n) := by
  obtain ⟨hhead, hpoint⟩ := head_toString n ""
  rw [String.append_empty] at hhead hpoint
  have hword : Expr.ofWord? (toString n) = some (.int n) := by
    rw [Expr.ofWord?, if_pos hhead, Decimal.toList_toString, Decimal.ofDigits_toDigits, if_pos rfl]
  refine ⟨isToken_toString n, hword, ?_⟩
  rw [Lexeme.ofRun_code hpoint, Token.ofRun_word (isToken_toString n).chars, String.ofList_toList]
  exact if_pos (.inr (by rw [hword]; rfl))

/-- No field can be looked up in a number. -/
theorem ofRun_toString_lookups (n : Nat) {fields : List String} (hne : fields ≠ [])
    (h : fields.all isSmall = true) :
    Lexeme.ofRun (.code (toString n ++ lookups fields).toList) = .junk := by
  obtain ⟨hhead, hpoint⟩ := head_toString n (lookups fields)
  have hmem : '.' ∈ (toString n ++ lookups fields).toList := by
    obtain ⟨field, rest, rfl⟩ := List.exists_cons_of_ne_nil hne
    simp [lookups_cons]
  have hword : Expr.ofWord? (toString n ++ lookups fields) = none := by
    rw [Expr.ofWord?, if_pos hhead, if_neg]
    intro htext
    rw [← htext] at hmem
    exact absurd (Json.isDigit_toString _ '.' hmem) (by decide)
  have hchars := (isToken_append (isToken_toString n) (chars_lookups h)).chars
  rw [Lexeme.ofRun_code hpoint, Token.ofRun_word hchars, String.ofList_toList]
  refine if_neg ?_
  rintro (hwildcard | hsome)
  · rw [hwildcard] at hhead
    exact absurd hhead (by decide)
  · rw [hword] at hsome
    cases hsome

theorem isToken_lookups {fields : List String} (hne : fields ≠ [])
    (h : fields.all isSmall = true) : IsToken (lookups fields) := by
  obtain ⟨field, rest, rfl⟩ := List.exists_cons_of_ne_nil hne
  exact ⟨by simp [lookups_cons], chars_lookups h⟩

/-- Fields that are looked up behind a bracket. -/
theorem ofRun_lookups {fields : List String} (hne : fields ≠ []) (h : fields.all isSmall = true) :
    Lexeme.ofRun (.code (lookups fields).toList) = .fields fields := by
  obtain ⟨field, rest, rfl⟩ := List.exists_cons_of_ne_nil hne
  obtain ⟨hfield, hrest⟩ := Bool.and_eq_true_iff.1 h
  have htext : (lookups (field :: rest)).toList = '.' :: (field ++ lookups rest).toList := by
    simp [lookups_cons]
  have hpieces : (split '.' (field ++ lookups rest).toList).map String.ofList = field :: rest := by
    have hpieces := pieces_append_lookups field hrest
    rwa [pieces_of_isIdentifier (isIdentifier_of_isSmall hfield), List.singleton_append] at hpieces
  rw [htext, Lexeme.ofRun, hpieces, if_pos h]

end ElmWire.Elm
