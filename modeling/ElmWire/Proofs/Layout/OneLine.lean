import ElmWire.Proofs.Layout.Algebra
import ElmWire.Proofs.Text.Blanks

/-!
# Layouts that differ in blanks only

A document has a text in one line (`Doc.oneLine`), with all soft line breaks in their flat form.  It
is *uniform* if each of its layouts is that text up to blanks, in front of whatever follows
(`Doc.Uniform`).

That is a matter of its soft line breaks alone.  A line break that is a space when flat is blank in
either form, and one that is `", "` in either form only gains blanks before the comma
(`Uniform.space`, `Uniform.comma`).  Putting uniform documents together, indenting, aligning or
grouping them keeps them uniform, so the page, which decides about groups and the columns of
alignments, makes no difference: **a uniform document has the same text up to blanks on every page**
(`onto_render`).
-/

set_option autoImplicit false
namespace ElmWire.Layout

open Text

/-! ## The text of fragments -/

/-- A fragment in front of squeezed text. -/
def Fragment.onto : Fragment → List Char → List Char
  | .text s, out => Text.onto s out
  | .newline _, out => put '\n' out

/-- Fragments in front of squeezed text. -/
def ontoAll (fragments : List Fragment) (out : List Char) : List Char :=
  fragments.foldr Fragment.onto out

theorem ontoAll_append (first second : List Fragment) (out : List Char) :
    ontoAll (first ++ second) out = ontoAll first (ontoAll second out) :=
  List.foldr_append

theorem ontoAll_separator (s : String) (out : List Char) :
    ontoAll (separator s) out = Text.onto s out := by
  rw [separator]
  split
  · next h => rw [String.isEmpty_iff.1 h]; rfl
  · rfl

/-- The indentation that is owed to a line comes after a blank, so that it makes no difference. -/
def Page.Blank (page : Page) : Prop :=
  0 < page.owed → ∀ out, Text.onto page.text (put ' ' out) = Text.onto page.text out

theorem Page.onto_indentation {page : Page} (h : page.Blank) (out : List Char) :
    Text.onto (page.text ++ String.ofList (List.replicate page.owed ' ')) out =
      Text.onto page.text out := by
  rw [onto_append, onto_ofList]
  rcases Nat.eq_zero_or_pos page.owed with hnone | howed
  · rw [hnone]
    rfl
  · have hspace := h howed
    clear h howed
    induction page.owed with
    | zero => rfl
    | succ n ih => rw [List.replicate_succ, List.foldr_cons, hspace, ih]

/-- Writing a fragment puts it behind what is on the page. -/
theorem Page.onto_write {page : Page} (h : page.Blank) (fragment : Fragment) :
    (page.write fragment).Blank ∧
      ∀ out, Text.onto (page.write fragment).text out =
        Text.onto page.text (fragment.onto out) := by
  cases fragment with
  | newline indent =>
    refine ⟨fun _ out => ?_, fun out => onto_push ..⟩
    rw [Page.write, onto_push, onto_push, put_put (by decide) (by decide)]
  | text s =>
    rw [Page.write]
    split
    · next hempty =>
      refine ⟨h, fun out => ?_⟩
      rw [Fragment.onto, String.isEmpty_iff.1 hempty, onto_empty]
    · refine ⟨fun howed => absurd howed (Nat.lt_irrefl 0), fun out => ?_⟩
      rw [onto_append, onto_indentation h]
      rfl

theorem Page.onto_foldl {fragments : List Fragment} {page : Page} (h : page.Blank)
    (out : List Char) : Text.onto (fragments.foldl Page.write page).text out =
      Text.onto page.text (ontoAll fragments out) := by
  induction fragments generalizing page with
  | nil => rfl
  | cons fragment rest ih =>
    obtain ⟨hblank, honto⟩ := page.onto_write h fragment
    rw [List.foldl_cons, ih hblank, honto]
    rfl

/-! ## Uniform documents -/

namespace Doc

/-- The text of the document with its soft line breaks in their flat form. -/
def oneLine : Doc → String
  | .nil => ""
  | .text s => s
  | .seq a b => a.oneLine ++ b.oneLine
  | .indent _ d => d.oneLine
  | .line flat _ => flat
  | .hardline => "\n"
  | .union flat _ => flat.oneLine
  | .flatten d => d.oneLine
  | .column f => (f 0).oneLine
  | .nesting f => (f 0).oneLine

theorem oneLine_nest (n : Int) (d : Doc) : (d.nest n).oneLine = d.oneLine := by
  rw [nest]
  split
  · rfl
  · rfl

theorem oneLine_append (a b : Doc) : (a ++ b).oneLine = a.oneLine ++ b.oneLine := by
  show (Doc.append a b).oneLine = _
  rw [append]
  split
  · next hnil =>
    obtain rfl : a = .nil := by cases a <;> simp_all [isNil]
    simp [oneLine]
  · split
    · next hnil =>
      obtain rfl : b = .nil := by cases b <;> simp_all [isNil]
      simp [oneLine]
    · rfl

theorem oneLine_concat (docs : List Doc) :
    (concat docs).oneLine = String.join (docs.map oneLine) := by
  have hfoldl : ∀ a : Doc,
      (docs.foldl append a).oneLine = a.oneLine ++ String.join (docs.map oneLine) := by
    induction docs with
    | nil => simp
    | cons d rest ih =>
      intro a
      rw [List.foldl_cons, ih, List.map_cons, String.join_cons, ← String.append_assoc]
      exact congrArg (· ++ _) (oneLine_append a d)
  rw [concat, hfoldl, oneLine, String.empty_append]

theorem oneLine_join (separator : Doc) (docs : List Doc) :
    (join separator docs).oneLine = separator.oneLine.intercalate (docs.map oneLine) := by
  have hfoldl : ∀ (rest : List Doc) (a : Doc),
      (rest.foldl (fun joined d => joined ++ separator ++ d) a).oneLine =
        separator.oneLine.intercalate (a.oneLine :: rest.map oneLine) := by
    intro rest
    induction rest with
    | nil => simp
    | cons d rest ih =>
      intro a
      rw [List.foldl_cons, ih, oneLine_append, oneLine_append, String.intercalate_cons_append,
        List.map_cons, String.intercalate_cons_cons]
  cases docs with
  | nil => rfl
  | cons first rest => exact hfoldl rest first

/-- Every layout of the document, wherever it starts and whatever follows, is its text in one line
up to blanks. -/
def Uniform (d : Doc) : Prop :=
  ∀ indent mode column, ∀ out ∈ d.layouts indent mode column, ∀ tail,
    ontoAll out tail = Text.onto d.oneLine tail

namespace Uniform

variable {a b d : Doc}

theorem nil : Uniform .nil := by
  rintro indent mode column out rfl tail
  rfl

theorem text (s : String) : Uniform (.text s) := by
  rintro indent mode column out rfl tail
  rfl

theorem hardline : Uniform .hardline := by
  rintro indent mode column out rfl tail
  rfl

theorem line {flat broken : String}
    (h : ∀ tail, put '\n' (Text.onto broken tail) = Text.onto flat tail) :
    Uniform (.line flat broken) := by
  intro indent mode column out hout tail
  cases mode with
  | flat =>
    cases hout
    exact ontoAll_separator flat tail
  | broken =>
    cases hout
    show put '\n' (ontoAll (separator broken) tail) = _
    rw [ontoAll_separator, h]
    rfl

theorem space : Uniform Doc.space := by
  refine line fun tail => ?_
  show put '\n' tail = put ' ' tail
  rw [put_of_blank (by decide), put_of_blank (by decide)]

theorem comma : Uniform (.line ", " ", ") :=
  line fun tail => put_comma (by decide) (put ' ' tail)

theorem seq (ha : a.Uniform) (hb : b.Uniform) : (a.seq b).Uniform := by
  rintro indent mode column out ⟨first, hfirst, second, hsecond, rfl⟩ tail
  rw [ontoAll_append, ha _ _ _ first hfirst, hb _ _ _ second hsecond, oneLine, onto_append]

theorem append (ha : a.Uniform) (hb : b.Uniform) : (a ++ b).Uniform := by
  show (Doc.append a b).Uniform
  rw [Doc.append]
  split
  · exact hb
  · split
    · exact ha
    · exact ha.seq hb

theorem nest (n : Int) (hd : d.Uniform) : (d.nest n).Uniform := by
  rw [Doc.nest]
  split
  · exact hd
  · exact fun indent mode column => hd (indented indent n) mode column

theorem group (hd : d.Uniform) : d.group.Uniform := by
  intro indent mode column out hout
  cases mode with
  | flat => exact hd indent .flat column out hout
  | broken =>
    rcases hout with hout | hout
    · exact hd indent .flat column out hout
    · exact hd indent .broken column out hout

theorem align (hd : d.Uniform) : d.align.Uniform := by
  intro indent mode column out hout tail
  rw [nest _ hd _ _ _ out hout, Doc.align, oneLine, oneLine, oneLine_nest, oneLine_nest]

theorem surround (opening closing : String) (hd : d.Uniform) :
    (Doc.surround opening d closing).Uniform :=
  ((text opening).append hd).append (text closing)

theorem foldl {f : Doc → Doc → Doc} (hf : ∀ {a d : Doc}, a.Uniform → d.Uniform → (f a d).Uniform)
    {docs : List Doc} (h : ∀ d ∈ docs, d.Uniform) (ha : a.Uniform) : (docs.foldl f a).Uniform := by
  induction docs generalizing a with
  | nil => exact ha
  | cons d rest ih =>
    obtain ⟨hd, hrest⟩ := List.forall_mem_cons.1 h
    exact ih hrest (hf ha hd)

theorem concat {docs : List Doc} (h : ∀ d ∈ docs, d.Uniform) : (Doc.concat docs).Uniform :=
  foldl append h nil

theorem join {separator : Doc} (hseparator : separator.Uniform) {docs : List Doc}
    (h : ∀ d ∈ docs, d.Uniform) : (Doc.join separator docs).Uniform := by
  cases docs with
  | nil => exact nil
  | cons first rest =>
    obtain ⟨hfirst, hrest⟩ := List.forall_mem_cons.1 h
    exact foldl (fun ha hd => (ha.append hseparator).append hd) hrest hfirst

end Uniform
end Doc

/-- **A uniform document has the same text up to blanks on every page.** -/
theorem onto_render {d : Doc} (h : d.Uniform) (width : Nat) (tail : List Char) :
    Text.onto (render width d) tail = Text.onto d.oneLine tail := by
  obtain ⟨out, hout, hlayout⟩ := exists_mem_layouts width d 0 .broken .nothing 0
  have hblank : (⟨"", 0⟩ : Page).Blank := fun howed => absurd howed (Nat.lt_irrefl 0)
  rw [render, best, Fragments.foldl_eq, hlayout, Rest.nothing, Fragments.toList, List.append_nil,
    Page.onto_foldl hblank, onto_empty, h 0 .broken 0 out hout]

end ElmWire.Layout
