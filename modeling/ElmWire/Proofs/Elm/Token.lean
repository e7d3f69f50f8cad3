import ElmWire.Text.Split
import ElmWire.Proofs.Elm.Printing
import ElmWire.Proofs.Layout.Lines
import ElmWire.Proofs.TypeScript.Token

/-!
# Tokens of Elm code

Printed code is read token by token, and blanks only separate tokens.  A token is a longest run of
characters that belong together: those of names and numbers, with the points of qualified names
(`isWordChar`), or those of operators (`isMarkChar`).  Every other character is a token by itself.

* `tokens cs` — the tokens of a text.
* `tokens_render` — **the page makes no difference to the tokens**, so what printed code says can be
  read off its text in one line.
* `Boundary cs` — what follows does not go on with a token.  In front of such a text, words are
  tokens (`tokens_word`).
* `isQualified` — names, and names with the names of modules before them.
-/

set_option autoImplicit false
namespace ElmWire.Elm

open Layout Text

/-! ## Runs of characters -/

/-- Can the character be part of a name, a qualified name or a number? -/
def isWordChar (c : Char) : Bool := isNameChar c || c == '.'

/-- Can the character be part of an operator? -/
def isMarkChar (c : Char) : Bool := c == '-' || c == '>' || c == '|' || c == '=' || c == ':'

/-- Do two characters next to each other belong to the same token? -/
def joins (c d : Char) : Bool := isWordChar c && isWordChar d || isMarkChar c && isMarkChar d

theorem joins_eq_false {d : Char} (h : (!isWordChar d && !isMarkChar d) = true) (c : Char) :
    joins c d = false := by
  obtain ⟨hword, hmark⟩ : isWordChar d = false ∧ isMarkChar d = false := by simpa using h
  simp [joins, hword, hmark]

/-- The runs of characters that belong together, without the blanks. -/
def runs : List Char → List (List Char)
  | [] => []
  | c :: rest =>
    if isBlank c then runs rest
    else if rest.head?.any (joins c) then consFirst c (runs rest) else [c] :: runs rest

/-- The tokens that are not words. -/
inductive Mark where
  | leftParen
  | rightParen
  | leftBracket
  | rightBracket
  | leftBrace
  | rightBrace
  | comma
  | colon
  | equals
  | arrow
  | pipe
  | backslash
  | quote
  deriving DecidableEq

/-- A token. -/
inductive Token where
  | word (w : String)
  | mark (m : Mark)
  deriving DecidableEq

/-- The token that a run of characters is. -/
def Token.ofRun : List Char → Token
  | ['('] => .mark .leftParen
  | [')'] => .mark .rightParen
  | ['['] => .mark .leftBracket
  | [']'] => .mark .rightBracket
  | ['\x7b'] => .mark .leftBrace
  | ['\x7d'] => .mark .rightBrace
  | [','] => .mark .comma
  | [':'] => .mark .colon
  | ['='] => .mark .equals
  | ['-', '>'] => .mark .arrow
  | ['|', '>'] => .mark .pipe
  | ['\\'] => .mark .backslash
  | ['"'] => .mark .quote
  | cs => .word (String.ofList cs)

/-- The tokens of a text. -/
def tokens (cs : List Char) : List Token := (runs cs).map Token.ofRun

/-- What follows does not go on with a token. -/
def Boundary (cs : List Char) : Prop :=
  cs.head?.all fun c => !isWordChar c && !isMarkChar c

theorem boundary_nil : Boundary [] := rfl

theorem boundary_cons {c : Char} (h : (!isWordChar c && !isMarkChar c) = true) (cs : List Char) :
    Boundary (c :: cs) := h

theorem tokens_blank {c : Char} (h : isBlank c = true) (cs : List Char) :
    tokens (c :: cs) = tokens cs := by
  rw [tokens, runs, if_pos h, tokens]

/-- A bracket, a comma or the like is a token by itself. -/
theorem tokens_single {c : Char} (hblank : isBlank c = false)
    (h : (!isWordChar c && !isMarkChar c) = true) (cs : List Char) :
    tokens (c :: cs) = Token.ofRun [c] :: tokens cs := by
  obtain ⟨hword, hmark⟩ : isWordChar c = false ∧ isMarkChar c = false := by simpa using h
  have hstops : cs.head?.any (joins c) = false := by
    cases cs with
    | nil => rfl
    | cons d cs => simp [joins, hword, hmark]
  rw [tokens, runs, hblank, hstops]
  rfl

theorem isBlank_eq_false_of_isWordChar {c : Char} (h : isWordChar c = true) :
    isBlank c = false := by
  cases hblank : isBlank c with
  | false => rfl
  | true =>
    rw [isBlank, Bool.or_eq_true, decide_eq_true_eq, decide_eq_true_eq] at hblank
    rcases hblank with rfl | rfl <;> exact absurd h (by decide)

theorem runs_word {c : Char} {w cs : List Char} (h : ∀ d ∈ c :: w, isWordChar d = true)
    (hcs : Boundary cs) : runs (c :: w ++ cs) = (c :: w) :: runs cs := by
  induction w generalizing c with
  | nil =>
    have hc : isWordChar c = true := h c List.mem_cons_self
    have hstops : cs.head?.any (joins c) = false := by
      cases cs with
      | nil => rfl
      | cons d cs => exact joins_eq_false hcs c
    rw [List.singleton_append, runs, isBlank_eq_false_of_isWordChar hc, hstops]
    rfl
  | cons d w ih =>
    obtain ⟨hc, hw⟩ := List.forall_mem_cons.1 h
    have hd : isWordChar d = true := hw d List.mem_cons_self
    have hjoins : (d :: w ++ cs).head?.any (joins c) = true := by simp [joins, hc, hd]
    rw [List.cons_append, runs, isBlank_eq_false_of_isWordChar hc, hjoins, ih hw]
    rfl

theorem Token.ofRun_word {w : List Char} (h : ∀ c ∈ w, isWordChar c = true) :
    ofRun w = .word (String.ofList w) := by
  fun_cases ofRun w with
  | case14 => rfl
  | _ => exact absurd (h _ List.mem_cons_self) (by decide)

/-- A word in front of what does not go on with it. -/
theorem tokens_word {w : String} (hne : w ≠ "") (h : ∀ c ∈ w.toList, isWordChar c = true)
    {cs : List Char} (hcs : Boundary cs) : tokens (w.toList ++ cs) = .word w :: tokens cs := by
  obtain ⟨c, rest, hcons⟩ := List.exists_cons_of_ne_nil (mt String.toList_eq_nil_iff.1 hne)
  rw [hcons] at h
  rw [tokens, hcons, runs_word h hcs, List.map_cons, Token.ofRun_word h, ← hcons,
    String.ofList_toList, tokens]

theorem tokens_colon (cs : List Char) :
    tokens (' ' :: ':' :: ' ' :: cs) = .mark .colon :: tokens cs := rfl

theorem tokens_equals (cs : List Char) :
    tokens (' ' :: '=' :: ' ' :: cs) = .mark .equals :: tokens cs := rfl

theorem tokens_arrow (cs : List Char) :
    tokens (' ' :: '-' :: '>' :: ' ' :: cs) = .mark .arrow :: tokens cs := rfl

theorem tokens_pipe (cs : List Char) :
    tokens (' ' :: '|' :: '>' :: ' ' :: cs) = .mark .pipe :: tokens cs := rfl

theorem tokens_comma (cs : List Char) :
    tokens (',' :: ' ' :: cs) = .mark .comma :: tokens cs := rfl

/-! ## Blanks -/

/-- Squeezing does not bring characters together that belong to the same token. -/
theorem head?_foldr_put (c : Char) (cs : List Char) :
    (cs.foldr put []).head?.any (joins c) = cs.head?.any (joins c) := by
  cases cs with
  | nil => rfl
  | cons d rest =>
    have hspace : joins c ' ' = false := joins_eq_false (by decide) c
    have hcomma : joins c ',' = false := joins_eq_false (by decide) c
    rw [List.foldr_cons]
    cases hd : isBlank d with
    | false => rw [put_of_not_blank hd]; rfl
    | true =>
      have hjoins : joins c d = false := by
        rw [isBlank, Bool.or_eq_true, decide_eq_true_eq, decide_eq_true_eq] at hd
        rcases hd with rfl | rfl
        · exact hspace
        · exact joins_eq_false (by decide) c
      rw [put_of_blank hd]
      split
      · next h => rcases h with h | h <;> simp [h, hspace, hcomma, hjoins]
      · simp [hspace, hjoins]

theorem runs_foldr_put (cs : List Char) : runs (cs.foldr put []) = runs cs := by
  induction cs with
  | nil => rfl
  | cons c rest ih =>
    rw [List.foldr_cons]
    cases hc : isBlank c with
    | false => rw [put_of_not_blank hc, runs, runs, hc, head?_foldr_put, ih]
    | true =>
      rw [put_of_blank hc, runs, if_pos hc]
      split
      · exact ih
      · rw [runs, if_pos (by decide), ih]

/-- Squeezed text has the same tokens. -/
theorem tokens_onto (s : String) : tokens (onto s []) = tokens s.toList := by
  rw [tokens, onto, runs_foldr_put, tokens]

theorem tokens_eq_of_squeeze_eq {s t : String} (h : squeeze s = squeeze t) :
    tokens s.toList = tokens t.toList := by
  rw [squeeze_eq, squeeze_eq, String.ofList_inj] at h
  rw [← tokens_onto, h, tokens_onto]

/-- **The page makes no difference to the tokens.** -/
theorem tokens_render {d : Doc} (h : d.Uniform) (width : Nat) :
    tokens (render width d).toList = tokens d.oneLine.toList := by
  rw [← tokens_onto, onto_render h, tokens_onto]

/-! ## Code in one line -/

theorem oneLine_parens (needed : Bool) (d : Doc) :
    (parens needed d).oneLine = if needed then "(" ++ d.oneLine ++ ")" else d.oneLine := by
  rw [parens]
  split
  · rw [Doc.surround, Doc.oneLine_append, Doc.oneLine_append, Doc.oneLine, Doc.oneLine]
  · rfl

theorem oneLine_sequence (opening closing : String) (items : List Doc) :
    (sequence opening items closing).oneLine =
      if items = [] then opening ++ closing
      else opening ++ " " ++ ", ".intercalate (items.map Doc.oneLine) ++ " " ++ closing := by
  fun_cases sequence opening items closing with
  | case1 => rfl
  | case2 items hne =>
    rw [if_neg hne]
    show ((Doc.text (opening ++ " ") ++ Doc.join (.line ", " ", ") items ++ .line " " "" ++
      .text closing).nest _).oneLine = _
    rw [Doc.oneLine_nest, Doc.oneLine_append, Doc.oneLine_append, Doc.oneLine_append,
      Doc.oneLine_join]
    rfl

/-- Parts in one line, with a space before each. -/
def spaced (parts : List Doc) : String := String.join (parts.map fun part => " " ++ part.oneLine)

theorem toList_spaced_cons (part : Doc) (rest : List Doc) :
    (spaced (part :: rest)).toList = ' ' :: (part.oneLine.toList ++ (spaced rest).toList) := by
  simp [spaced]

theorem oneLine_spread (head : Doc) (parts : List Doc) :
    (spread head parts).oneLine = head.oneLine ++ spaced parts := by
  show (head ++ (Doc.concat (parts.map (Doc.space ++ ·))).nest indentation).oneLine = _
  rw [Doc.oneLine_append, Doc.oneLine_nest, Doc.oneLine_concat, List.map_map, spaced]
  congr 2
  refine List.map_congr_left fun part _ => ?_
  exact Doc.oneLine_append Doc.space part

theorem toList_intercalate_comma (s : String) {texts : List String} (h : texts ≠ []) :
    (", ".intercalate (s :: texts)).toList =
      s.toList ++ ',' :: ' ' :: (", ".intercalate texts).toList := by
  obtain ⟨t, rest, rfl⟩ := List.exists_cons_of_ne_nil h
  rw [String.intercalate_cons_cons]
  simp

/-- Parts with a space before each do not go on with a token. -/
theorem boundary_spaced (parts : List Doc) {cs : List Char} (hcs : Boundary cs) :
    Boundary ((spaced parts).toList ++ cs) := by
  cases parts with
  | nil => exact hcs
  | cons part rest =>
    rw [toList_spaced_cons]
    exact boundary_cons (by decide) _

/-! ## Parts and items

How things in a row are read, for a relation `R as ts rest` that says that the tokens `ts` start
with what stands for `as` and that `rest` is left. -/

section

variable {α : Type} {R : List α → List Token → List Token → Prop} {doc : α → Doc} {as : List α}

/-- Parts with a space before each are read one after the other. -/
theorem reads_spaced (hnil : ∀ ts, R [] ts ts)
    (hcons : ∀ a ∈ as, ∀ others cs rest, Boundary cs → R others (tokens cs) rest →
      R (a :: others) (tokens ((doc a).oneLine.toList ++ cs)) rest)
    {cs : List Char} (hcs : Boundary cs) :
    R as (tokens ((spaced (as.map doc)).toList ++ cs)) (tokens cs) := by
  induction as with
  | nil => exact hnil _
  | cons a rest ih =>
    obtain ⟨ha, hrest⟩ := List.forall_mem_cons.1 hcons
    rw [List.map_cons, toList_spaced_cons, List.cons_append, tokens_blank (by decide),
      List.append_assoc]
    exact ha rest _ _ (boundary_spaced _ hcs) (ih hrest)

/-- How an item in a bracket is read: it is the last one, or a comma and more items follow. -/
structure ReadsItem (R : List α → List Token → List Token → Prop) (doc : α → Doc) (closing : Mark)
    (a : α) : Prop where
  last : ∀ {cs rest}, Boundary cs → tokens cs = .mark closing :: rest →
    R [a] (tokens ((doc a).oneLine.toList ++ cs)) rest
  more : ∀ {next others cs us rest}, Boundary cs → tokens cs = .mark .comma :: us →
    R (next :: others) us rest →
      R (a :: next :: others) (tokens ((doc a).oneLine.toList ++ cs)) rest

theorem reads_items {closing : Mark} (h : ∀ a ∈ as, ReadsItem R doc closing a) (hne : as ≠ [])
    {cs : List Char} {rest : List Token} (hcs : Boundary cs)
    (hclosing : tokens cs = .mark closing :: rest) :
    R as (tokens ((", ".intercalate ((as.map doc).map Doc.oneLine)).toList ++ cs)) rest := by
  induction as with
  | nil => exact absurd rfl hne
  | cons a others ih =>
    obtain ⟨ha, hothers⟩ := List.forall_mem_cons.1 h
    cases others with
    | nil => exact ha.last hcs hclosing
    | cons next others =>
      rw [List.map_cons, List.map_cons, toList_intercalate_comma _ (by simp), List.append_assoc]
      exact ha.more (boundary_cons (by decide) _) (tokens_comma _)
        (ih hothers (List.cons_ne_nil next others))

/-- Items in brackets, from behind the opening one. -/
theorem reads_sequence {opening closing : Mark} {o c : String}
    (ho : ∀ cs, tokens (o.toList ++ cs) = .mark opening :: tokens cs)
    (hc : ∀ cs, tokens (c.toList ++ cs) = .mark closing :: tokens cs)
    (hnil : ∀ ts, R [] (.mark closing :: ts) ts) (h : ∀ a ∈ as, ReadsItem R doc closing a)
    (cs : List Char) :
    ∃ ts, tokens ((sequence o (as.map doc) c).oneLine.toList ++ cs) = .mark opening :: ts ∧
      R as ts (tokens cs) := by
  by_cases hne : as = []
  · subst hne
    have htext : (sequence o [] c).oneLine.toList ++ cs = o.toList ++ (c.toList ++ cs) := by
      rw [oneLine_sequence, if_pos rfl]
      simp
    rw [List.map_nil, htext, ho, hc]
    exact ⟨_, rfl, hnil _⟩
  · have htext : (sequence o (as.map doc) c).oneLine.toList ++ cs =
        o.toList ++ ' ' :: ((", ".intercalate ((as.map doc).map Doc.oneLine)).toList ++
          ' ' :: (c.toList ++ cs)) := by
      rw [oneLine_sequence, if_neg (by simpa using hne)]
      simp
    rw [htext, ho, tokens_blank (by decide)]
    refine ⟨_, rfl, reads_items h hne (boundary_cons (by decide) _) ?_⟩
    rw [tokens_blank (by decide), hc]

end

/-! ## Names -/

/-- Is it a name, of whatever? -/
def isIdentifier (name : String) : Bool := isNameWith (fun c => c.isAlpha || c == '_') name

/-- Is it a name, or one with the names of modules before it? -/
def isQualified (name : String) : Bool := (pieces '.' name).all isIdentifier

/-- Is it a name of a module, a type or a constructor? -/
def isCapital (name : String) : Bool := isIdentifier name && name.toList.head?.any Char.isUpper

/-- Is it a name of a type or a constructor, or one with the names of modules before it? -/
def isCapitalised (name : String) : Bool := (pieces '.' name).all isCapital

theorem isIdentifier_of_isCapital {name : String} (h : isCapital name = true) :
    isIdentifier name = true := (Bool.and_eq_true_iff.1 h).1

theorem isQualified_of_isCapitalised {name : String} (h : isCapitalised name = true) :
    isQualified name = true :=
  List.all_eq_true.2 fun piece hpiece =>
    isIdentifier_of_isCapital (List.all_eq_true.1 h piece hpiece)

theorem isWordChar_of_isNameChar {c : Char} (h : isNameChar c = true) : isWordChar c = true := by
  rw [isWordChar, h]
  rfl

theorem chars_of_isIdentifier {name : String} (h : isIdentifier name = true) :
    name ≠ "" ∧ ∀ c ∈ name.toList, isNameChar c = true := by
  have hfirst : ∀ c : Char, (c.isAlpha || c == '_') = true → isNameChar c = true := by
    intro c hc
    rcases Bool.or_eq_true_iff.1 hc with hc | hc
    · exact TypeScript.isNameChar_of_isAlpha hc
    · simp [isNameChar, hc]
  obtain ⟨hne, hchars⟩ := TypeScript.chars_of_isNameWith hfirst h
  exact ⟨fun heq => hne (heq ▸ rfl), hchars⟩

theorem mem_split (separator : Char) {c : Char} {cs : List Char} (h : c ∈ cs) :
    c = separator ∨ ∃ piece ∈ split separator cs, c ∈ piece := by
  induction cs with
  | nil => simp at h
  | cons d rest ih =>
    by_cases hd : d = separator
    · rw [split, if_pos hd]
      rcases List.mem_cons.1 h with rfl | h
      · exact .inl hd
      · refine (ih h).imp_right fun hmem => ?_
        obtain ⟨piece, hpiece, hc⟩ := hmem
        exact ⟨piece, List.mem_cons_of_mem _ hpiece, hc⟩
    · obtain ⟨first, others, hsplit⟩ := List.exists_cons_of_ne_nil (split_ne_nil separator rest)
      rw [hsplit] at ih
      rw [split, if_neg hd, hsplit, consFirst]
      rcases List.mem_cons.1 h with rfl | h
      · exact .inr ⟨c :: first, List.mem_cons_self, List.mem_cons_self⟩
      · refine (ih h).imp_right fun hmem => ?_
        obtain ⟨piece, hpiece, hc⟩ := hmem
        rcases List.mem_cons.1 hpiece with rfl | hpiece
        · exact ⟨d :: piece, List.mem_cons_self, List.mem_cons_of_mem d hc⟩
        · exact ⟨piece, List.mem_cons_of_mem _ hpiece, hc⟩

theorem chars_of_isQualified {name : String} (h : isQualified name = true) :
    name ≠ "" ∧ ∀ c ∈ name.toList, isWordChar c = true := by
  rw [isQualified, List.all_eq_true] at h
  refine ⟨?_, fun c hc => ?_⟩
  · rintro rfl
    exact absurd (h "" (by decide)) (by decide)
  · rcases mem_split '.' hc with rfl | ⟨piece, hpiece, hc⟩
    · rfl
    · have hname := h (String.ofList piece) (List.mem_map_of_mem hpiece)
      refine isWordChar_of_isNameChar ((chars_of_isIdentifier hname).2 c ?_)
      rwa [String.toList_ofList]

end ElmWire.Elm
