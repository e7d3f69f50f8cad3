import ElmWire.Text.Indent
import ElmWire.Proofs.Layout.Hardline
import ElmWire.Proofs.Layout.OneLine

/-!
# The lines of a layout

A layout is a list of fragments, its text is a list of lines.  The first fragment after a line break
starts a line, and the line is written with its indentation in front of it, unless nothing stands on
it.

* `textLines line out` — the lines of fragments, the first of which is already begun.
* `written owed out` — the text of fragments, on a line to which some indentation is owed.
* `lines_written` — **the lines of the text are those of the fragments**, for fragments that have no
  line breaks in their texts.
* `Doc.Unbroken d` — no text in the document has a line break in it.
* `Doc.Inline d` — the document is made of texts, and has the one layout.
-/

set_option autoImplicit false
namespace ElmWire

namespace Text

theorem split_append {separator : Char} {p cs first : List Char} {rest : List (List Char)}
    (hp : separator ∉ p) (hcs : split separator cs = first :: rest) :
    split separator (p ++ cs) = (p ++ first) :: rest := by
  induction p with
  | nil => exact hcs
  | cons c p ih =>
    have hc : c ≠ separator := fun heq => hp (heq ▸ List.mem_cons_self)
    have hmem : separator ∉ p := fun hmem => hp (List.mem_cons_of_mem c hmem)
    rw [List.cons_append, split, if_neg hc, ih hmem, consFirst, List.cons_append]

/-- Cutting at a separator undoes joining with it. -/
theorem split_intercalate {separator : Char} {ps : List (List Char)} (hne : ps ≠ [])
    (h : ∀ p ∈ ps, separator ∉ p) : split separator ([separator].intercalate ps) = ps := by
  induction ps with
  | nil => exact absurd rfl hne
  | cons p rest ih =>
    obtain ⟨hp, hrest⟩ := List.forall_mem_cons.1 h
    cases rest with
    | nil =>
      have hlast : split separator (p ++ []) = [p ++ []] := split_append hp rfl
      simpa using hlast
    | cons q rest =>
      rw [List.intercalate_cons_cons, List.append_assoc, List.singleton_append,
        split_append hp (by rw [split, if_pos rfl]), List.append_nil,
        ih (List.cons_ne_nil q rest) hrest]

/-- How far a line is indented. -/
def indentOf (line : String) : Nat := (line.toList.takeWhile (· = ' ')).length

/-- Does something stand in the first column of the line? -/
def atMargin (line : String) : Bool := line.toList.head?.any fun c => !c.isWhitespace

end Text

namespace Layout

/-! ## Lines -/

/-- A line: how far it is indented, and what stands on it. -/
structure TextLine where
  indent : Nat
  text : String

namespace TextLine

/-- The line with its indentation; a line on which nothing stands has none. -/
def write (line : TextLine) : String :=
  if line.text.isEmpty then "" else Text.spaces line.indent ++ line.text

theorem write_zero (s : String) : write ⟨0, s⟩ = s := by
  rw [write]
  split
  · next hempty => exact (String.isEmpty_iff.1 hempty).symm
  · simp [Text.spaces]

/-- A page with only the line on it. -/
def page (line : TextLine) : Page :=
  if line.text.isEmpty then ⟨"", line.indent⟩ else ⟨line.write, 0⟩

theorem text_page (line : TextLine) : line.page.text = line.write := by
  rw [page, write]
  split
  · rfl
  · rfl

theorem page_write_text (line : TextLine) (s : String) :
    line.page.write (.text s) = page ⟨line.indent, line.text ++ s⟩ := by
  obtain ⟨indent, text⟩ := line
  by_cases htext : text = ""
  · subst htext
    by_cases hs : s = ""
    · subst hs
      rfl
    · simp [page, Page.write, write, hs, Text.spaces]
  · by_cases hs : s = ""
    · subst hs
      simp [page, Page.write, write, htext]
    · simp [page, Page.write, write, htext, hs, String.append_assoc]

theorem page_write_newline (line : TextLine) (n : Nat) :
    line.page.write (.newline n) = (page ⟨n, ""⟩).behind (line.write ++ "\n") := by
  rw [Page.write, text_page, String.push_eq_append]
  simp [page, Page.behind]

end TextLine

/-- The lines of fragments, where the first one is begun already. -/
def textLines (line : TextLine) : List Fragment → List TextLine
  | [] => [line]
  | .text s :: rest => textLines ⟨line.indent, line.text ++ s⟩ rest
  | .newline indent :: rest => line :: textLines ⟨indent, ""⟩ rest

theorem textLines_ne_nil (line : TextLine) (out : List Fragment) : textLines line out ≠ [] := by
  fun_induction textLines line out with
  | case1 line => exact List.cons_ne_nil _ _
  | case2 line s rest ih => exact ih
  | case3 line indent rest ih => exact List.cons_ne_nil _ _

theorem textLines_append_newline (line : TextLine) (first second : List Fragment) (n : Nat) :
    textLines line (first ++ .newline n :: second) =
      textLines line first ++ textLines ⟨n, ""⟩ second := by
  fun_induction textLines line first with
  | case1 line => rfl
  | case2 line s rest ih => exact ih
  | case3 line indent rest ih => exact congrArg (line :: ·) ih

/-- The first line goes on where it was begun, and the others are indented as the line breaks
say. -/
theorem textLines_eq_cons (line : TextLine) (out : List Fragment) :
    ∃ s rest, textLines line out = ⟨line.indent, line.text ++ s⟩ :: rest ∧
      ∀ l ∈ rest, .newline l.indent ∈ out := by
  fun_induction textLines line out with
  | case1 line => exact ⟨"", [], by simp, by simp⟩
  | case2 line s rest ih =>
    obtain ⟨t, ls, hlines, hls⟩ := ih
    exact ⟨s ++ t, ls, by rw [hlines, String.append_assoc],
      fun l hl => List.mem_cons_of_mem _ (hls l hl)⟩
  | case3 line indent rest ih =>
    obtain ⟨t, ls, hlines, hls⟩ := ih
    refine ⟨"", textLines ⟨indent, ""⟩ rest, by simp, fun l hl => ?_⟩
    rw [hlines] at hl
    rcases List.mem_cons.1 hl with rfl | hl
    · exact List.mem_cons_self
    · exact List.mem_cons_of_mem _ (hls l hl)

theorem textLines_texts (line : TextLine) (texts : List String) :
    textLines line (texts.map .text) = [⟨line.indent, line.text ++ String.join texts⟩] := by
  induction texts generalizing line with
  | nil => simp [textLines]
  | cons s rest ih => rw [List.map_cons, textLines, ih, String.join_cons, String.append_assoc]

/-- Line breaks are nowhere but between the lines. -/
theorem newline_notMem_textLines {line : TextLine} {out : List Fragment}
    (hline : '\n' ∉ line.text.toList) (h : ∀ s, .text s ∈ out → '\n' ∉ s.toList) :
    ∀ l ∈ textLines line out, '\n' ∉ l.text.toList := by
  fun_induction textLines line out with
  | case1 line => exact List.forall_mem_singleton.2 hline
  | case2 line s rest ih =>
    refine ih ?_ fun t ht => h t (List.mem_cons_of_mem _ ht)
    have hs := h s List.mem_cons_self
    simp [hline, hs]
  | case3 line indent rest ih =>
    exact List.forall_mem_cons.2
      ⟨hline, ih (by simp) fun t ht => h t (List.mem_cons_of_mem _ ht)⟩

/-! ## Text -/

/-- The text of fragments, on a line to which some indentation is owed. -/
def written (owed : Nat) (out : List Fragment) : String := (out.foldl Page.write ⟨"", owed⟩).text

theorem render_eq_written (width : Nat) (d : Doc) :
    render width d = written 0 (best width 0 d).toList := by
  rw [render, Fragments.foldl_eq, written]

theorem text_foldl_write (line : TextLine) (out : List Fragment) :
    (out.foldl Page.write line.page).text =
      "\n".intercalate ((textLines line out).map TextLine.write) := by
  fun_induction textLines line out with
  | case1 line => simp [line.text_page]
  | case2 line s rest ih => rw [List.foldl_cons, line.page_write_text, ih]
  | case3 line indent rest ih =>
    obtain ⟨l, ls, hlines⟩ := List.exists_cons_of_ne_nil (textLines_ne_nil ⟨indent, ""⟩ rest)
    rw [List.foldl_cons, line.page_write_newline, Page.foldl_write_behind, Page.behind, ih,
      List.map_cons, hlines, List.map_cons, String.intercalate_cons_cons]

theorem written_eq_intercalate (owed : Nat) (out : List Fragment) :
    written owed out = "\n".intercalate ((textLines ⟨owed, ""⟩ out).map TextLine.write) :=
  text_foldl_write ⟨owed, ""⟩ out

theorem written_texts (owed : Nat) {texts : List String} (h : String.join texts ≠ "") :
    written owed (texts.map .text) = Text.spaces owed ++ String.join texts := by
  rw [written_eq_intercalate, textLines_texts]
  simp [TextLine.write, h]

/-- What is written stays in front of what is written later. -/
theorem exists_written_append (owed : Nat) (first second : List Fragment) :
    ∃ s, written owed (first ++ second) = written owed first ++ s := by
  have hpage : ∀ page : Page, page = Page.behind ⟨"", page.owed⟩ page.text := by
    intro page
    simp [Page.behind]
  rw [written, List.foldl_append, hpage (first.foldl Page.write ⟨"", owed⟩),
    Page.foldl_write_behind]
  exact ⟨_, rfl⟩

theorem written_append_newline (owed : Nat) (first second : List Fragment) (n : Nat) :
    written owed (first ++ .newline n :: second) =
      written owed first ++ "\n" ++ written n second := by
  have hbreak : ∀ page : Page,
      page.write (.newline n) = Page.behind ⟨"", n⟩ (page.text ++ "\n") := by
    intro page
    simp [Page.write, Page.behind, String.push_eq_append]
  rw [written, List.foldl_append, List.foldl_cons, hbreak, Page.foldl_write_behind]
  rfl

/-- **The lines of the text are the lines of the layout.** -/
theorem lines_written {out : List Fragment} (h : ∀ s, .text s ∈ out → '\n' ∉ s.toList)
    (owed : Nat) :
    Text.lines (written owed out) = (textLines ⟨owed, ""⟩ out).map TextLine.write := by
  have hbreaks : ∀ p ∈ (textLines ⟨owed, ""⟩ out).map (fun l => l.write.toList), '\n' ∉ p := by
    refine List.forall_mem_map.2 fun l hl => ?_
    have hl := newline_notMem_textLines (by simp) h l hl
    rw [TextLine.write]
    split
    · simp
    · simp [Text.spaces, hl]
  have hne : (textLines ⟨owed, ""⟩ out).map (fun l => l.write.toList) ≠ [] := by
    simp [textLines_ne_nil]
  rw [Text.lines, Text.pieces, written_eq_intercalate, String.toList_intercalate, List.map_map]
  rw [show "\n".toList = ['\n'] from rfl, show String.toList ∘ TextLine.write =
    fun l : TextLine => l.write.toList from rfl, Text.split_intercalate hne hbreaks]
  simp

namespace Doc

/-! ## Documents without line breaks in their texts -/

/-- No text in the document has a line break in it. -/
def Unbroken : Doc → Prop
  | .nil | .hardline => True
  | .text s => '\n' ∉ s.toList
  | .seq a b | .union a b => a.Unbroken ∧ b.Unbroken
  | .indent _ d | .flatten d => d.Unbroken
  | .line flat broken => '\n' ∉ flat.toList ∧ '\n' ∉ broken.toList
  | .column f | .nesting f => ∀ n, (f n).Unbroken

namespace Unbroken

variable {a b d : Doc}

theorem of_mem_layouts (hd : d.Unbroken) {indent column : Nat} {mode : Mode} {out : List Fragment}
    (hout : out ∈ d.layouts indent mode column) : ∀ s, .text s ∈ out → '\n' ∉ s.toList := by
  have hseparator : ∀ {s : String}, '\n' ∉ s.toList → ∀ t, .text t ∈ separator s →
      '\n' ∉ t.toList := by
    intro s hs t ht
    rw [separator] at ht
    split at ht
    · simp at ht
    · simp_all
  induction d generalizing indent mode column out with
  | nil | hardline => cases hout; simp
  | text s =>
    have hs : '\n' ∉ s.toList := hd
    cases hout; simpa using hs
  | seq a b iha ihb =>
    obtain ⟨first, hfirst, second, hsecond, rfl⟩ := hout
    intro s hs
    rcases List.mem_append.1 hs with hs | hs
    · exact iha hd.1 hfirst s hs
    · exact ihb hd.2 hsecond s hs
  | indent n d ih => exact ih hd hout
  | flatten d ih => exact ih hd hout
  | column f ih => exact ih column (hd column) hout
  | nesting f ih => exact ih indent (hd indent) hout
  | line flat broken =>
    cases mode with
    | flat => cases hout; exact hseparator hd.1
    | broken => cases hout; simpa using hseparator hd.2
  | union a b iha ihb =>
    cases mode with
    | flat => exact iha hd.1 hout
    | broken =>
      rcases hout with hout | hout
      · exact iha hd.1 hout
      · exact ihb hd.2 hout

theorem append (ha : a.Unbroken) (hb : b.Unbroken) : (a ++ b).Unbroken := by
  show (Doc.append a b).Unbroken
  rw [Doc.append]
  split
  · exact hb
  · split
    · exact ha
    · exact ⟨ha, hb⟩

theorem nest (n : Int) (hd : d.Unbroken) : (d.nest n).Unbroken := by
  rw [Doc.nest]
  split
  · exact hd
  · exact hd

theorem group (hd : d.Unbroken) : d.group.Unbroken := ⟨hd, hd⟩

theorem align (hd : d.Unbroken) : d.align.Unbroken := fun _ _ => hd.nest _

theorem foldl {f : Doc → Doc → Doc}
    (hf : ∀ {a d : Doc}, a.Unbroken → d.Unbroken → (f a d).Unbroken)
    {docs : List Doc} (h : ∀ d ∈ docs, d.Unbroken) (ha : a.Unbroken) :
    (docs.foldl f a).Unbroken := by
  induction docs generalizing a with
  | nil => exact ha
  | cons d rest ih =>
    obtain ⟨hd, hrest⟩ := List.forall_mem_cons.1 h
    exact ih hrest (hf ha hd)

theorem concat {docs : List Doc} (h : ∀ d ∈ docs, d.Unbroken) : (Doc.concat docs).Unbroken :=
  foldl append h trivial

theorem join {separator : Doc} (hseparator : separator.Unbroken) {docs : List Doc}
    (h : ∀ d ∈ docs, d.Unbroken) : (Doc.join separator docs).Unbroken := by
  cases docs with
  | nil => exact trivial
  | cons first rest =>
    obtain ⟨hfirst, hrest⟩ := List.forall_mem_cons.1 h
    exact foldl (fun ha hd => (ha.append hseparator).append hd) hrest hfirst

end Unbroken

/-! ## Documents in a line -/

/-- Every layout of the document is made of texts, which together are its text in one line. -/
def Inline (d : Doc) : Prop :=
  ∀ indent mode column, ∀ out ∈ d.layouts indent mode column,
    ∃ texts : List String, out = texts.map .text ∧ String.join texts = d.oneLine

namespace Inline

variable {a b d : Doc}

theorem text (s : String) : Inline (.text s) := by
  rintro indent mode column out rfl
  exact ⟨[s], rfl, by simp [oneLine]⟩

theorem append (ha : a.Inline) (hb : b.Inline) : (a ++ b).Inline := by
  show (Doc.append a b).Inline
  rw [Doc.append]
  split
  · exact hb
  · split
    · exact ha
    · rintro indent mode column out ⟨first, hfirst, second, hsecond, rfl⟩
      obtain ⟨texts, rfl, htexts⟩ := ha indent mode column first hfirst
      obtain ⟨texts', rfl, htexts'⟩ := hb indent mode _ second hsecond
      exact ⟨texts ++ texts', by simp, by simp [oneLine, htexts, htexts']⟩

theorem concat {docs : List Doc} (h : ∀ d ∈ docs, d.Inline) : (Doc.concat docs).Inline := by
  have hfoldl : ∀ {a : Doc}, a.Inline → (docs.foldl Doc.append a).Inline := by
    induction docs with
    | nil => exact fun ha => ha
    | cons d rest ih =>
      obtain ⟨hd, hrest⟩ := List.forall_mem_cons.1 h
      exact fun ha => ih hrest (ha.append hd)
  refine hfoldl ?_
  rintro indent mode column out rfl
  exact ⟨[], rfl, rfl⟩

end Inline
end Doc
end Layout
end ElmWire
