import ElmWire.Proofs.Layout.Lines
import ElmWire.Proofs.Layout.Offside

/-!
# Blanks at the ends of lines

Many texts of a document end in a blank, such as the separators of a list, and some of them may come
right in front of a line break.  Whether they do is a matter of what stands next to each other in a
layout.

* `blankAfter blank out` — does the line that fragments end on end in a blank, if `blank` says so of
  the line that they start on?
* `Trims blank out` — no line that the fragments end, ends in a blank.
* `Doc.Leads before after d` — `d` keeps lines free of blanks at their ends in each of its layouts.
  It may stand behind a blank if `before` is true, and may leave a blank behind if `after` is.

So a document that may stand anywhere and leaves no blank behind has `Leads true false`, and a line
break, which must not stand behind a blank, has `Leads false` and something.
-/

set_option autoImplicit false
namespace ElmWire

namespace Text

/-- Does the text end in a blank? -/
def endsBlank (s : String) : Bool := s.toList.getLast?.any Char.isWhitespace

theorem endsBlank_append {s t : String} (ht : t ≠ "") : endsBlank (s ++ t) = endsBlank t := by
  have hne : t.toList ≠ [] := mt String.toList_eq_nil_iff.1 ht
  rw [endsBlank, endsBlank, String.toList_append, List.getLast?_append_of_ne_nil _ hne]

/-- A separator cuts the pieces in two. -/
theorem split_append_cons (separator : Char) (cs ds : List Char) :
    split separator (cs ++ separator :: ds) = split separator cs ++ split separator ds := by
  induction cs with
  | nil => simp [split]
  | cons c cs ih =>
    rw [List.cons_append, split, split, ih]
    split
    · rfl
    · obtain ⟨piece, rest, heq⟩ := List.exists_cons_of_ne_nil (split_ne_nil separator cs)
      rw [heq]
      rfl

theorem lines_append_newline (s t : String) : lines (s ++ "\n" ++ t) = lines s ++ lines t := by
  rw [lines, lines, lines, pieces, pieces, pieces, ← List.map_append, ← split_append_cons]
  simp

/-- The lines of texts with blank lines between them. -/
theorem forall_mem_lines_intercalate {P : String → Prop} (hempty : P "") {texts : List String}
    (h : ∀ s ∈ texts, ∀ line ∈ lines s, P line) :
    ∀ line ∈ lines ("\n\n\n".intercalate texts), P line := by
  induction texts with
  | nil => exact List.forall_mem_singleton.2 hempty
  | cons s rest ih =>
    obtain ⟨hs, hrest⟩ := List.forall_mem_cons.1 h
    cases rest with
    | nil => simpa using hs
    | cons t rest =>
      have hblanks : s ++ "\n\n\n" ++ "\n\n\n".intercalate (t :: rest) =
          s ++ "\n" ++ ("" ++ "\n" ++ ("" ++ "\n" ++ "\n\n\n".intercalate (t :: rest))) := by
        simp [← String.toList_inj]
      rw [String.intercalate_cons_cons, hblanks, lines_append_newline, lines_append_newline,
        lines_append_newline]
      have hblank : ∀ line ∈ lines "", P line := List.forall_mem_singleton.2 hempty
      simp only [List.forall_mem_append]
      exact ⟨hs, hblank, hblank, ih hrest⟩

end Text

namespace Layout

/-! ## Fragments -/

/-- Does a line end in a blank, once a text has been added to it? -/
def blankAfterText (blank : Bool) (s : String) : Bool :=
  if s.isEmpty then blank else Text.endsBlank s

/-- Does the line that the fragments end on end in a blank? -/
def blankAfter : Bool → List Fragment → Bool
  | blank, [] => blank
  | blank, .text s :: rest => blankAfter (blankAfterText blank s) rest
  | _, .newline _ :: rest => blankAfter false rest

/-- No line that the fragments end, ends in a blank. -/
def Trims : Bool → List Fragment → Prop
  | _, [] => True
  | blank, .text s :: rest => Trims (blankAfterText blank s) rest
  | blank, .newline _ :: rest => blank = false ∧ Trims false rest

theorem blankAfter_append (blank : Bool) (first second : List Fragment) :
    blankAfter blank (first ++ second) = blankAfter (blankAfter blank first) second := by
  induction first generalizing blank with
  | nil => rfl
  | cons fragment rest ih => cases fragment <;> exact ih _

theorem trims_append (blank : Bool) (first second : List Fragment) :
    Trims blank (first ++ second) ↔
      Trims blank first ∧ Trims (blankAfter blank first) second := by
  induction first generalizing blank with
  | nil => exact (and_iff_right trivial).symm
  | cons fragment rest ih =>
    cases fragment with
    | text s => exact ih _
    | newline n => exact (and_congr_right' (ih _)).trans and_assoc.symm

theorem endsBlank_append_text (line s : String) :
    Text.endsBlank (line ++ s) = blankAfterText (Text.endsBlank line) s := by
  rw [blankAfterText]
  split
  · next hempty => rw [String.isEmpty_iff.1 hempty, String.append_empty]
  · next hempty => exact Text.endsBlank_append (mt String.isEmpty_iff.2 hempty)

/-- Fragments that end no line in a blank, and leave none behind, have no line that does. -/
theorem endsBlank_of_mem_textLines {line : TextLine} {out : List Fragment}
    (htrims : Trims (Text.endsBlank line.text) out)
    (hlast : blankAfter (Text.endsBlank line.text) out = false) :
    ∀ l ∈ textLines line out, Text.endsBlank l.text = false := by
  fun_induction textLines line out with
  | case1 line => exact List.forall_mem_singleton.2 hlast
  | case2 line s rest ih =>
    rw [Trims, ← endsBlank_append_text] at htrims
    rw [blankAfter, ← endsBlank_append_text] at hlast
    exact ih htrims hlast
  | case3 line indent rest ih =>
    exact List.forall_mem_cons.2 ⟨htrims.1, ih htrims.2 hlast⟩

/-- Indentation is written in front of something only. -/
theorem TextLine.endsBlank_write {line : TextLine} (h : Text.endsBlank line.text = false) :
    Text.endsBlank line.write = false := by
  rw [write]
  split
  · rfl
  · next hempty => rw [Text.endsBlank_append (mt String.isEmpty_iff.2 hempty), h]

/-! ## Documents -/

namespace Doc

/-- In each of its layouts the document ends no line in a blank, where it may stand behind a blank
if `before` is true, and leaves a blank behind only if `after` is. -/
def Leads (before after : Bool) (d : Doc) : Prop :=
  ∀ blank ≤ before, ∀ indent mode column, ∀ out ∈ d.layouts indent mode column,
    Trims blank out ∧ blankAfter blank out ≤ after

namespace Leads

variable {a b d : Doc} {before middle after : Bool}

theorem mono (h : d.Leads before after) {before' after' : Bool} (hbefore : before' ≤ before)
    (hafter : after ≤ after') : d.Leads before' after' := by
  intro blank hblank indent mode column out hout
  obtain ⟨htrims, hle⟩ := h blank (hblank.trans hbefore) indent mode column out hout
  exact ⟨htrims, hle.trans hafter⟩

theorem nil : Leads before before .nil := by
  rintro blank hblank indent mode column out rfl
  exact ⟨trivial, hblank⟩

/-- A text that does not end in a blank. -/
theorem text {s : String} (hne : s ≠ "") (hs : Text.endsBlank s = false) :
    Leads before false (.text s) := by
  rintro blank - indent mode column out rfl
  refine ⟨trivial, ?_⟩
  rw [blankAfter, blankAfter, blankAfterText, if_neg (by simpa using hne), hs]

/-- A text may leave a blank behind. -/
theorem anyText (s : String) : Leads before true (.text s) := by
  rintro blank - indent mode column out rfl
  exact ⟨trivial, Bool.le_true _⟩

theorem hardline : Leads false false .hardline := by
  rintro blank hblank indent mode column out rfl
  exact ⟨⟨le_bot_iff.1 hblank, trivial⟩, Bool.false_le _⟩

theorem line (flat broken : String) : Leads false true (.line flat broken) := by
  have hseparator : ∀ blank s, Trims blank (separator s) := by
    intro blank s
    rw [separator]
    split
    · trivial
    · trivial
  intro blank hblank indent mode column out hout
  refine ⟨?_, Bool.le_true _⟩
  cases mode with
  | flat =>
    cases hout
    exact hseparator blank flat
  | broken =>
    cases hout
    exact ⟨le_bot_iff.1 hblank, hseparator false broken⟩

theorem append (ha : a.Leads before middle) (hb : b.Leads middle after) :
    (a ++ b).Leads before after := by
  intro blank hblank indent mode column out hout
  rw [layouts_append] at hout
  obtain ⟨first, hfirst, second, hsecond, rfl⟩ := hout
  obtain ⟨htrims, hle⟩ := ha blank hblank indent mode column first hfirst
  obtain ⟨htrims', hle'⟩ := hb _ hle indent mode _ second hsecond
  rw [trims_append, blankAfter_append]
  exact ⟨⟨htrims, htrims'⟩, hle'⟩

theorem nest (n : Int) (hd : d.Leads before after) : (d.nest n).Leads before after := by
  intro blank hblank indent mode column
  rw [layouts_nest]
  exact hd blank hblank (indented indent n) mode column

theorem align (hd : d.Leads before after) : d.align.Leads before after :=
  fun blank hblank indent mode column =>
    hd.nest (signed column - indent) blank hblank indent mode column

theorem group (hd : d.Leads before after) : d.group.Leads before after := by
  intro blank hblank indent mode column out hout
  obtain ⟨mode', hout⟩ := exists_mode_of_mem_layouts_group hout
  exact hd blank hblank indent mode' column out hout

/-- Documents that leave lines as they find them do so one after the other. -/
theorem concat {docs : List Doc} (h : ∀ d ∈ docs, d.Leads before before) :
    (Doc.concat docs).Leads before before := by
  have hfoldl : ∀ {a : Doc}, a.Leads before before →
      (docs.foldl Doc.append a).Leads before before := by
    induction docs with
    | nil => exact fun ha => ha
    | cons d rest ih =>
      obtain ⟨hd, hrest⟩ := List.forall_mem_cons.1 h
      exact fun ha => ih hrest (ha.append hd)
  exact hfoldl nil

/-- Documents that may stand behind the separators, which may stand behind them. -/
theorem join {separator : Doc} (hseparator : separator.Leads after before) {docs : List Doc}
    (hne : docs ≠ []) (h : ∀ d ∈ docs, d.Leads before after) :
    (Doc.join separator docs).Leads before after := by
  have hfoldl : ∀ {a : Doc} {rest : List Doc}, (∀ d ∈ rest, d.Leads before after) →
      a.Leads before after →
      (rest.foldl (fun joined d => joined ++ separator ++ d) a).Leads before after := by
    intro a rest hrest ha
    induction rest generalizing a with
    | nil => exact ha
    | cons d rest ih =>
      obtain ⟨hd, hrest⟩ := List.forall_mem_cons.1 hrest
      exact ih hrest ((ha.append hseparator).append hd)
  obtain ⟨first, rest, rfl⟩ := List.exists_cons_of_ne_nil hne
  obtain ⟨hfirst, hrest⟩ := List.forall_mem_cons.1 h
  exact hfoldl hrest hfirst

end Leads
end Doc

/-- **The text of such a document has no line that ends in a blank, in any of its layouts.** -/
theorem endsBlank_of_mem_lines_written {d : Doc} (hunbroken : d.Unbroken) {before : Bool}
    (h : d.Leads before false) {indent column owed : Nat} {mode : Mode} {out : List Fragment}
    (hout : out ∈ d.layouts indent mode column) :
    ∀ line ∈ Text.lines (written owed out), Text.endsBlank line = false := by
  obtain ⟨htrims, hlast⟩ := h false (Bool.false_le _) indent mode column out hout
  rw [lines_written (hunbroken.of_mem_layouts hout)]
  refine List.forall_mem_map.2 fun l hl => TextLine.endsBlank_write ?_
  exact @endsBlank_of_mem_textLines ⟨owed, ""⟩ out htrims (le_bot_iff.1 hlast) l hl

end Layout
end ElmWire
