import Mathlib.Logic.Relation
import ElmWire.Proofs.Elm.Documents

/-!
# The offside rule

Elm reads the ends of its constructions off the indentation: a declaration goes on as long as lines
are indented, and the branches of a case expression are those lines that start where its first
branch does.  So printed code is only right if no line of it starts too far left.

**Printed code keeps to the offside rule on every page** (`offside`), as long as all columns are
signed numbers of 64 bits: within an expression, a type or a pattern no line starts further left
than the indentation it was given; a declaration has nothing in the first column but its first line
and, if it declares a value, the line that starts the definition; and in a case expression all
patterns start in the same column and all bodies at least four columns further right.  Behind those
columns the rule is broken (`list_beyond_columns`).
-/

set_option autoImplicit false
namespace ElmWire

namespace Text

/-- A text that is not empty and has no blanks in it. -/
def IsWord (s : String) : Prop := s ≠ "" ∧ ∀ c ∈ s.toList, c.isWhitespace = false

instance (s : String) : Decidable (IsWord s) :=
  @instDecidableAnd _ _ inferInstance (List.decidableBAll _ s.toList)

theorem IsWord.exists_cons {s : String} (h : IsWord s) :
    ∃ c cs, s.toList = c :: cs ∧ c.isWhitespace = false := by
  obtain ⟨c, cs, hcons⟩ := List.exists_cons_of_ne_nil (mt String.toList_eq_nil_iff.1 h.1)
  exact ⟨c, cs, hcons, h.2 c (hcons ▸ List.mem_cons_self)⟩

theorem IsWord.newline_notMem {s : String} (h : IsWord s) : '\n' ∉ s.toList :=
  fun hmem => absurd (h.2 '\n' hmem) (by decide)

theorem IsWord.atMargin_append {s : String} (h : IsWord s) (t : String) :
    atMargin (s ++ t) = true := by
  obtain ⟨c, cs, hcons, hc⟩ := h.exists_cons
  simp [atMargin, hcons, hc]

/-- A text that does not start with a blank is indented as far as there are spaces before it. -/
theorem indentOf_spaces_append {c : Char} {cs : List Char} {s : String} (n : Nat)
    (hs : s.toList = c :: cs) (hc : c ≠ ' ') : indentOf (spaces n ++ s) = n := by
  rw [indentOf, spaces, String.toList_append, String.toList_ofList, hs,
    List.takeWhile_append_of_pos (by simp), List.takeWhile_cons_of_neg (by simpa using hc)]
  simp

theorem le_indentOf_spaces_append (n : Nat) (s : String) : n ≤ indentOf (spaces n ++ s) := by
  rw [indentOf, spaces, String.toList_append, String.toList_ofList,
    List.takeWhile_append_of_pos (by simp)]
  simp

end Text

namespace Elm

open Layout

/-! ## Printed code -/

/-- The documents that are printed for expressions, types and patterns, each in any place. -/
inductive Printed : Doc → Prop
  | expr (e : Expr) (prec : Prec) : Printed (e.toDoc prec)
  | type (type : TypeExpr) (prec : TypePrec) : Printed (type.toDocIn prec)
  | pattern (pattern : Pattern) (atomic : Bool) : Printed (pattern.toDoc atomic)

theorem Printed.hangs {d : Doc} (h : Printed d) : d.Hangs 4 := by
  cases h with
  | expr e prec => exact e.closed closedUnderPrinting_hangs prec fun _ _ _ _ => trivial
  | type type prec => exact type.closed closedUnderPrinting_hangs prec fun _ _ _ _ => trivial
  | pattern pattern atomic =>
    exact pattern.closed closedUnderPrinting_hangs atomic fun _ _ _ _ => trivial

/-- **Within printed code no line starts further left than the indentation it was given.** -/
theorem Printed.indent_le {d : Doc} (h : Printed d) {indent column : Nat} {mode : Mode}
    (hcolumn : indent ≤ column) {out : List Fragment} (hout : out ∈ d.layouts indent mode column)
    (hrange : InRange column out) : ∀ n, .newline n ∈ out → indent ≤ n :=
  (h.hangs indent indent mode column (Nat.le_add_right _ _) hcolumn out hout hrange).newline

/-! ## Patterns -/

mutual

theorem Pattern.inline : ∀ (pattern : Pattern) (atomic : Bool), (pattern.toDoc atomic).Inline
  | .var name, _ => by rw [Pattern.toDoc]; exact .text name
  | .wildcard, _ => by rw [Pattern.toDoc]; exact .text "_"
  | .ctor name arguments, atomic => by
    have hdocs := patternDocs_inline arguments
    cases arguments with
    | nil => rw [Pattern.toDoc]; exact .text name
    | cons first rest =>
      have hctor := (Doc.Inline.text name).append (.concat hdocs)
      rw [Pattern.toDoc, parens]
      · split
        · exact ((Doc.Inline.text "(").append hctor).append (.text ")")
        · exact hctor
      · exact List.cons_ne_nil first rest

theorem patternDocs_inline : ∀ (patterns : List Pattern), ∀ d ∈ patternDocs patterns, d.Inline
  | [] => by rw [patternDocs]; exact List.forall_mem_nil _
  | pattern :: rest => by
    rw [patternDocs]
    exact List.forall_mem_cons.2
      ⟨(Doc.Inline.text " ").append (pattern.inline true), patternDocs_inline rest⟩

end

/-- The pattern of a branch starts with its name or with the wildcard. -/
theorem Pattern.oneLine_eq_cons {pattern : Pattern} (h : ∀ name ∈ pattern.names, Text.IsWord name) :
    ∃ c cs, (pattern.toDoc false).oneLine.toList = c :: cs ∧ c ≠ ' ' := by
  have hname : ∀ {name : String}, Text.IsWord name → ∀ s : String,
      ∃ c cs, (name ++ s).toList = c :: cs ∧ c ≠ ' ' := by
    intro name hword s
    obtain ⟨c, cs, hcons, hc⟩ := hword.exists_cons
    refine ⟨c, cs ++ s.toList, by simp [hcons], ?_⟩
    rintro rfl
    exact absurd hc (by decide)
  cases pattern with
  | wildcard => exact ⟨'_', [], by rw [Pattern.toDoc]; rfl, by decide⟩
  | var name =>
    rw [Pattern.toDoc, Doc.oneLine]
    simpa using hname (h name (by simp)) ""
  | ctor name arguments =>
    cases arguments with
    | nil =>
      rw [Pattern.toDoc, Doc.oneLine]
      simpa using hname (h name (by simp)) ""
    | cons first rest =>
      rw [Pattern.toDoc, parens, if_neg (by simp), Doc.oneLine_append, Doc.oneLine]
      · exact hname (h name (by simp)) _
      · exact List.cons_ne_nil first rest

/-! ## Case expressions -/

/-- The lines of a branch of a case expression in a text: `out` are the fragments of the case
expression and `before` those in front of it.  The branch is `lead` into the case expression, with
its pattern in column `margin`, and `body` is the layout of its body. -/
structure BranchLines (text : String) (before out : List Fragment) (margin : Nat)
    (branch : Pattern × Expr) (lead body : List Fragment) : Prop where
  fragments : ∃ header tail, out = lead ++ .newline margin :: header ++
    .text " ->" :: .newline (margin + 4) :: body ++ tail
  layout : ∃ mode, body ∈ (branch.2.toDoc .top).layouts (margin + 4) mode (margin + 4)
  text_eq : ∃ tail, text = written 0 (before ++ lead) ++ "\n" ++
    (Text.spaces margin ++ (branch.1.toDoc false).oneLine ++ " ->") ++ "\n" ++
    written (margin + 4) body ++ tail
  /-- The pattern starts at the margin. -/
  indentOf_pattern :
    Text.indentOf (Text.spaces margin ++ (branch.1.toDoc false).oneLine ++ " ->") = margin
  /-- The body is indented by four columns more, but for lines on which nothing stands. -/
  le_indentOf_body : ∀ line ∈ Text.lines (written (margin + 4) body),
    line.toList.all Char.isWhitespace = true ∨ margin + 4 ≤ Text.indentOf line

/-- All branches of a case expression start lines with four more columns of indentation. -/
theorem starts_branch (prec : Prec) (scrutinee : Expr) {branches : List (Pattern × Expr)}
    {branch : Pattern × Expr} (h : branch ∈ branches) :
    ((Expr.case scrutinee branches).toDoc prec).Starts 4
      (branch.1.toDoc false ++ .text " ->" ++
        (Doc.hardline ++ branch.2.toDoc .top).nest indentation) := by
  have hbranch := List.mem_map_of_mem
    (f := fun branch : Pattern × Expr => branch.1.toDoc false ++ .text " ->" ++
      (Doc.hardline ++ branch.2.toDoc .top).nest indentation) h
  rw [← branchDocs_eq_map] at hbranch
  have hblock := ((Doc.Starts.join hbranch).nest 4).append_right
    (Doc.text "case " ++ scrutinee.toDoc .top ++ .text " of")
  rw [Expr.toDoc, parens]
  split
  · exact (hblock.append_right (.text "(")).append_left (.text ")")
  · exact hblock

/-- The fragments of a branch: the pattern in a line, and the body behind a line break. -/
theorem exists_branch_fragments {branch : Pattern × Expr} {margin : Nat} {mode : Mode}
    {inner : List Fragment}
    (h : inner ∈ (branch.1.toDoc false ++ .text " ->" ++
      (Doc.hardline ++ branch.2.toDoc .top).nest indentation).layouts margin mode margin) :
    ∃ texts : List String, ∃ body ∈ (branch.2.toDoc .top).layouts (margin + 4) mode (margin + 4),
      inner = texts.map .text ++ .text " ->" :: .newline (margin + 4) :: body ∧
        String.join texts = (branch.1.toDoc false).oneLine := by
  rw [Doc.layouts_append] at h
  obtain ⟨first, hfirst, second, hsecond, rfl⟩ := h
  rw [Doc.layouts_append] at hfirst
  obtain ⟨header, hheader, arrow, rfl, rfl⟩ := hfirst
  obtain ⟨texts, rfl, htexts⟩ := branch.1.inline false margin mode margin header hheader
  rw [Doc.layouts_nest, Doc.layouts_append] at hsecond
  obtain ⟨linebreak, rfl, body, hbody, rfl⟩ := hsecond
  have hindented : indented margin indentation = margin + 4 := by
    rw [indented, indentation]
    omega
  rw [hindented] at hbody ⊢
  exact ⟨texts, body, hbody, by simp, htexts⟩

theorem le_indentOf_write (line : TextLine) :
    line.write.toList.all Char.isWhitespace = true ∨ line.indent ≤ Text.indentOf line.write := by
  rw [TextLine.write]
  split
  · exact .inl rfl
  · exact .inr (Text.le_indentOf_spaces_append _ _)

/-- The lines of printed code that starts a line. -/
theorem Printed.le_indentOf {d : Doc} (h : Printed d) (hunbroken : d.Unbroken) {margin : Nat}
    {mode : Mode} {out : List Fragment} (hout : out ∈ d.layouts margin mode margin)
    (hrange : InRange margin out) : ∀ line ∈ Text.lines (written margin out),
      line.toList.all Char.isWhitespace = true ∨ margin ≤ Text.indentOf line := by
  have hnewline := h.indent_le (Nat.le_refl margin) hout hrange
  have hlines : ∀ l ∈ textLines ⟨margin, ""⟩ out, margin ≤ l.indent := by
    obtain ⟨s, rest, heq, hrest⟩ := textLines_eq_cons ⟨margin, ""⟩ out
    rw [heq]
    exact List.forall_mem_cons.2 ⟨Nat.le_refl margin, fun l hl => hnewline _ (hrest l hl)⟩
  rw [lines_written (hunbroken.of_mem_layouts hout)]
  refine List.forall_mem_map.2 fun l hl => (le_indentOf_write l).imp_right fun hle => ?_
  exact (hlines l hl).trans hle

/-- **The branches of a case expression have their patterns in the same column, and their bodies at
least four columns further right.** -/
theorem exists_branchLines {scrutinee : Expr} {branches : List (Pattern × Expr)}
    {branch : Pattern × Expr} (hbranch : branch ∈ branches)
    (hpattern : ∀ name ∈ branch.1.names, Text.IsWord name)
    (hbody : ∀ name ∈ branch.2.names, Text.IsWord name) {prec : Prec} {indent column : Nat}
    {mode : Mode} {before out after : List Fragment}
    (hout : out ∈ ((Expr.case scrutinee branches).toDoc prec).layouts indent mode column)
    (hrange : InRange column out) :
    ∃ lead body, BranchLines (written 0 (before ++ out ++ after)) before out (indent + 4) branch
      lead body := by
  obtain ⟨lead, inner, tail, rfl, hinner⟩ :=
    starts_branch prec scrutinee hbranch indent mode column out hout
  obtain ⟨texts, body, hlayout, rfl, htexts⟩ := exists_branch_fragments hinner
  obtain ⟨c, cs, hcons, hc⟩ := Pattern.oneLine_eq_cons hpattern
  have hunbroken : (branch.2.toDoc .top).Unbroken :=
    branch.2.closed closedUnderPrinting_unbroken .top fun name hname _ hmem heq =>
      (hbody name hname).newline_notMem (heq ▸ hmem)
  have hjoin : String.join (texts ++ [" ->"]) = (branch.1.toDoc false).oneLine ++ " ->" := by
    simp [htexts]
  have hheader : written (indent + 4) ((texts ++ [" ->"]).map .text) =
      Text.spaces (indent + 4) ++ (branch.1.toDoc false).oneLine ++ " ->" := by
    rw [written_texts _ (by simp), hjoin, String.append_assoc]
  refine ⟨lead, body, ⟨texts.map .text, tail, by simp⟩, ⟨mode, hlayout⟩, ?_, ?_, ?_⟩
  · obtain ⟨more, hmore⟩ := exists_written_append (indent + 4 + 4) body (tail ++ after)
    refine ⟨more, ?_⟩
    have hsplit : before ++ (lead ++ .newline (indent + 4) :: (texts.map .text ++
        .text " ->" :: .newline (indent + 4 + 4) :: body) ++ tail) ++ after =
        before ++ lead ++ .newline (indent + 4) :: ((texts ++ [" ->"]).map .text ++
          .newline (indent + 4 + 4) :: (body ++ (tail ++ after))) := by simp
    rw [hsplit, written_append_newline, written_append_newline, hheader, hmore]
    simp only [String.append_assoc]
  · rw [String.append_assoc]
    exact Text.indentOf_spaces_append _ (by rw [String.toList_append, hcons]; rfl) hc
  · refine (Printed.expr branch.2 .top).le_indentOf hunbroken hlayout ?_
    have hsplit : lead ++ .newline (indent + 4) :: (texts.map .text ++
        .text " ->" :: .newline (indent + 4 + 4) :: body) ++ tail =
        (lead ++ .newline (indent + 4) :: (texts ++ [" ->"]).map .text ++
          [.newline (indent + 4 + 4)]) ++ (body ++ tail) := by simp
    rw [hsplit] at hrange
    have hright := hrange.right.left
    rwa [columnAfter_append] at hright

/-! ## Declarations -/

/-- The line that starts the definition of a value. -/
def Decl.definition? : Decl → Option String
  | .value name _ _ => some (name ++ " =")
  | _ => none

theorem filter_atMargin_write {lines : List TextLine} (h : ∀ l ∈ lines, 0 < l.indent) :
    (lines.map TextLine.write).filter Text.atMargin = [] := by
  refine List.filter_eq_nil_iff.2 (List.forall_mem_map.2 fun l hl => ?_)
  obtain ⟨n, hn⟩ := Nat.exists_eq_succ_of_ne_zero (Nat.ne_of_gt (h l hl))
  rw [TextLine.write, hn]
  split
  · simp [Text.atMargin]
  · simp [Text.atMargin, Text.spaces, List.replicate_succ]

/-- Of lines the first of which is begun in the first column, only that one starts there if no line
break goes back to it. -/
theorem filter_atMargin_textLines {s : String} (hs : ∀ t, Text.atMargin (s ++ t) = true)
    {out : List Fragment} (h : ∀ n, .newline n ∈ out → 0 < n) :
    ∃ first rest, (textLines ⟨0, s⟩ out).map TextLine.write = first :: rest ∧
      ((textLines ⟨0, s⟩ out).map TextLine.write).filter Text.atMargin = [first] := by
  obtain ⟨t, rest, heq, hrest⟩ := textLines_eq_cons ⟨0, s⟩ out
  refine ⟨s ++ t, rest.map TextLine.write, by rw [heq, List.map_cons, TextLine.write_zero], ?_⟩
  rw [heq, List.map_cons, TextLine.write_zero, List.filter_cons_of_pos (hs t),
    filter_atMargin_write fun l hl => h _ (hrest l hl)]

/-- The constructors of a custom type, each in a line. -/
theorem hangs_ctorDocs (ctors : List (String × List TypeExpr)) :
    ∀ d ∈ ctorDocs ctors, d.Hangs 0 := by
  have hctor : ∀ lead ctor, (ctorDoc lead ctor).Hangs 0 := by
    intro lead ctor
    have harguments := typeDocs_closed closedUnderPrinting_hangs .argument ctor.2
      fun _ _ _ _ => trivial
    refine .append (.append (.append .hardline (.text lead)) (.text ctor.1)) (.concat ?_)
    exact List.forall_mem_map.2 fun d hd =>
      (Doc.Hangs.text " ").append ((harguments d hd).mono (Nat.zero_le 4))
  cases ctors with
  | nil => exact List.forall_mem_nil _
  | cons first rest =>
    exact List.forall_mem_cons.2
      ⟨hctor "= " first, List.forall_mem_map.2 fun ctor _ => hctor "| " ctor⟩

theorem unbroken_ctorDocs {ctors : List (String × List TypeExpr)}
    (h : ∀ ctor ∈ ctors, ∀ name ∈ ctor.1 :: typeNames ctor.2, Text.IsWord name) :
    ∀ d ∈ ctorDocs ctors, d.Unbroken := by
  have hctor : ∀ lead ctor, '\n' ∉ lead.toList → ctor ∈ ctors → (ctorDoc lead ctor).Unbroken := by
    intro lead ctor hlead hmem
    obtain ⟨hname, hnames⟩ := List.forall_mem_cons.1 (h ctor hmem)
    have harguments := typeDocs_closed closedUnderPrinting_unbroken .argument ctor.2
      fun name hname _ hmem heq => (hnames name hname).newline_notMem (heq ▸ hmem)
    have hline : Doc.hardline.Unbroken := trivial
    have hspace : (Doc.text " ").Unbroken := by simp [Doc.Unbroken]
    refine .append (.append (.append hline hlead) hname.newline_notMem) (.concat ?_)
    exact List.forall_mem_map.2 fun d hd => hspace.append (harguments d hd)
  cases ctors with
  | nil => exact List.forall_mem_nil _
  | cons first rest =>
    refine List.forall_mem_cons.2 ⟨hctor "= " first (by decide) List.mem_cons_self, ?_⟩
    exact List.forall_mem_map.2 fun ctor hmem =>
      hctor "| " ctor (by decide) (List.mem_cons_of_mem _ hmem)

theorem Decl.unbroken {decl : Decl} (h : ∀ name ∈ decl.names, Text.IsWord name) :
    decl.toDoc.Unbroken := by
  have hline : Doc.hardline.Unbroken := trivial
  have hblock : ∀ {d : Doc}, d.Unbroken → ((Doc.hardline ++ d).nest indentation).Unbroken :=
    fun hd => .nest _ (hline.append hd)
  have htype : ∀ type : TypeExpr, (∀ name ∈ type.names, Text.IsWord name) →
      type.toDoc.Unbroken := fun type htype =>
    type.closed closedUnderPrinting_unbroken .top fun name hname _ hmem heq =>
      (htype name hname).newline_notMem (heq ▸ hmem)
  cases decl with
  | value name signature body =>
    obtain ⟨hname, h⟩ := List.forall_mem_cons.1 h
    obtain ⟨hsignature, hbody⟩ := List.forall_mem_append.1 h
    have hbody := body.closed closedUnderPrinting_unbroken .top fun name hname _ hmem heq =>
      (hbody name hname).newline_notMem (heq ▸ hmem)
    refine .append (.append (.append (.append ?_ (htype _ hsignature)) hline) ?_) (hblock hbody)
    · simp [Doc.Unbroken, hname.newline_notMem]
    · simp [Doc.Unbroken, hname.newline_notMem]
  | «alias» name type =>
    obtain ⟨hname, h⟩ := List.forall_mem_cons.1 h
    refine .append ?_ (hblock (htype _ h))
    simp [Doc.Unbroken, hname.newline_notMem]
  | custom name ctors =>
    obtain ⟨hname, h⟩ := List.forall_mem_cons.1 h
    have hctors := unbroken_ctorDocs fun ctor hctor name hname =>
      h name (List.mem_flatMap.2 ⟨ctor, hctor, hname⟩)
    refine .append ?_ (.nest _ (.concat hctors))
    simp [Doc.Unbroken, hname.newline_notMem]

/-- Text in the first column, and a document that is indented by four columns where it is broken. -/
theorem filter_atMargin_of_hangs {s : String} {d : Doc}
    (hs : ∀ t, Text.atMargin (s ++ t) = true) (hd : d.Hangs 4)
    {mode : Mode} {out : List Fragment} (hout : out ∈ (Doc.text s ++ d).layouts 0 mode 0)
    (hrange : InRange 0 out) :
    ∃ first rest, (textLines ⟨0, ""⟩ out).map TextLine.write = first :: rest ∧
      ((textLines ⟨0, ""⟩ out).map TextLine.write).filter Text.atMargin = [first] := by
  have hpos : 0 < textWidth s := by
    rw [textWidth, Nat.pos_iff_ne_zero, Ne, String.length_eq_zero_iff]
    rintro rfl
    exact absurd (hs "") (by decide)
  rw [Doc.layouts_append] at hout
  obtain ⟨start, rfl, more, hmore, rfl⟩ := hout
  have hnewline : ∀ n, .newline n ∈ more → 0 < n :=
    (hd 1 0 mode _ (by omega) (Nat.lt_add_left 0 hpos) more hmore hrange.right).newline
  rw [List.singleton_append, textLines, String.empty_append]
  exact filter_atMargin_textLines hs hnewline

/-- **A declaration has nothing in the first column but its first line and, if it is that of a
value, the line that starts the definition.** -/
theorem Decl.filter_atMargin {decl : Decl} (h : ∀ name ∈ decl.names, Text.IsWord name)
    {out : List Fragment} (hout : out ∈ decl.toDoc.layouts 0 .broken 0) (hrange : InRange 0 out) :
    (Text.lines (written 0 out)).filter Text.atMargin =
      (Text.lines (written 0 out)).head?.toList ++ decl.definition?.toList := by
  have hblock : ∀ {d : Doc}, Printed d → ((Doc.hardline ++ d).nest indentation).Hangs 4 :=
    fun hd => closedUnderPrinting_hangs.block (List.forall_mem_singleton.2 hd.hangs)
  rw [lines_written ((Decl.unbroken h).of_mem_layouts hout)]
  cases decl with
  | value name signature body =>
    have hname : Text.IsWord name := h name List.mem_cons_self
    have hstart : ∀ s t, Text.atMargin (name ++ s ++ t) = true := by
      intro s t
      rw [String.append_assoc]
      exact hname.atMargin_append (s ++ t)
    -- The line break between the signature and the definition cuts the lines in two.
    rw [Decl.toDoc, ← Doc.layouts_append_append, Doc.layouts_append] at hout
    obtain ⟨upper, hupper, lower, hlower, rfl⟩ := hout
    rw [Doc.layouts_append] at hupper
    obtain ⟨upper, hupper, linebreak, rfl, rfl⟩ := hupper
    rw [columnAfter_append] at hlower
    have hrangeLower : InRange 0 lower := by
      have hright := hrange.right
      rwa [columnAfter_append] at hright
    obtain ⟨first, rest, hlines, hfilter⟩ := filter_atMargin_of_hangs (hstart " : ")
      (Printed.type signature .top).hangs hupper hrange.left.left
    obtain ⟨second, rest', hlines', hfilter'⟩ := filter_atMargin_of_hangs (hstart " =")
      (hblock (.expr body .top)) hlower hrangeLower
    have hsecond : second = name ++ " =" := by
      rw [Doc.layouts_append] at hlower
      obtain ⟨start, rfl, more, hmore, rfl⟩ := hlower
      rw [Doc.layouts_nest, Doc.layouts_append] at hmore
      obtain ⟨linebreak, rfl, more, -, rfl⟩ := hmore
      rw [List.singleton_append, List.singleton_append, textLines, textLines, List.map_cons,
        String.empty_append, TextLine.write_zero] at hlines'
      exact (List.cons.inj hlines').1.symm
    rw [List.append_assoc, List.singleton_append, textLines_append_newline, List.map_append,
      List.filter_append, hfilter, hfilter', hlines, hsecond]
    rfl
  | «alias» name type =>
    obtain ⟨first, rest, hlines, hfilter⟩ := filter_atMargin_of_hangs
      (s := "type alias " ++ name ++ " =") (fun t => by simp [Text.atMargin])
      (hblock (.type type .top)) hout hrange
    rw [hfilter, hlines]
    rfl
  | custom name ctors =>
    have hctors := (Doc.Hangs.concat (hangs_ctorDocs ctors)).nest 4
    obtain ⟨first, rest, hlines, hfilter⟩ := filter_atMargin_of_hangs (s := "type " ++ name)
      (fun t => by simp [Text.atMargin]) hctors hout hrange
    rw [hfilter, hlines]
    rfl

/-! ## Parts of expressions -/

/-- The expressions that an expression is made of. -/
def Expr.parts : Expr → List Expr
  | .var _ | .string _ | .int _ => []
  | .app function arguments => function :: arguments
  | .lambda _ body => [body]
  | .list items | .tuple items => items
  | .record fields => fields.map (·.2)
  | .access subject _ => [subject]
  | .case scrutinee branches => scrutinee :: branches.map (·.2)
  | .pipe head stages => head :: stages

/-- The expression itself, its parts, the parts of those, and so on. -/
def Expr.Occurs (part e : Expr) : Prop :=
  Relation.ReflTransGen (fun e part => part ∈ e.parts) e part

theorem holds_parens (needed : Bool) (d : Doc) : (parens needed d).Holds d := by
  rw [parens]
  split
  · exact .surround "(" ")" d
  · exact .refl d

theorem holds_sequence (opening closing : String) {items : List Doc} {d : Doc} (h : d ∈ items) :
    (sequence opening items closing).Holds d := by
  fun_cases sequence opening items closing with
  | case1 => simp at h
  | case2 items =>
    refine .trans (.group _) (.trans (.align _) (.trans (.append_left _ _) ?_))
    exact .trans (.append_left _ _) (.trans (.append_right _ _) (.join _ h))

theorem holds_spread_head (head : Doc) (parts : List Doc) : (spread head parts).Holds head :=
  .trans (.group _) (.append_left _ _)

theorem holds_spread_part (head : Doc) {parts : List Doc} {d : Doc} (h : d ∈ parts) :
    (spread head parts).Holds d := by
  refine .trans (.group _) (.trans (.append_right _ _) (.trans (.nest _ _) ?_))
  exact .trans (.concat (List.mem_map_of_mem h)) (.append_right _ _)

/-- The document of an expression has those of its parts in it. -/
theorem Expr.holds_part {e part : Expr} (h : part ∈ e.parts) (prec : Prec) :
    ∃ prec', (e.toDoc prec).Holds (part.toDoc prec') := by
  have hdocs : ∀ {prec : Prec} {es : List Expr}, part ∈ es → part.toDoc prec ∈ exprDocs prec es :=
    fun hmem => exprDocs_eq_map _ _ ▸ List.mem_map_of_mem hmem
  cases e with
  | var | string | int => simp [parts] at h
  | app function arguments =>
    rw [Expr.toDoc]
    rcases List.mem_cons.1 h with rfl | h
    · exact ⟨.atomic, (holds_parens _ _).trans (holds_spread_head _ _)⟩
    · exact ⟨.atomic, (holds_parens _ _).trans (holds_spread_part _ (hdocs h))⟩
  | lambda params body =>
    obtain rfl : part = body := List.mem_singleton.1 h
    rw [Expr.toDoc]
    exact ⟨.top, (holds_parens _ _).trans (holds_spread_part _ (List.mem_singleton.2 rfl))⟩
  | list items | tuple items =>
    rw [Expr.toDoc]
    exact ⟨.top, holds_sequence _ _ (hdocs h)⟩
  | record fields =>
    obtain ⟨field, hfield, rfl⟩ := List.mem_map.1 h
    rw [Expr.toDoc, fieldDocs_eq_map]
    exact ⟨.top, (holds_sequence _ _ (List.mem_map_of_mem hfield)).trans (.append_right _ _)⟩
  | access subject field =>
    obtain rfl : part = subject := List.mem_singleton.1 h
    rw [Expr.toDoc]
    exact ⟨.atomic, .append_left _ _⟩
  | case scrutinee branches =>
    rw [Expr.toDoc, branchDocs_eq_map]
    refine ⟨.top, (holds_parens _ _).trans ?_⟩
    rcases List.mem_cons.1 h with rfl | h
    · exact .trans (.append_left _ _) (.trans (.append_left _ _) (.append_right _ _))
    · obtain ⟨branch, hbranch, rfl⟩ := List.mem_map.1 h
      refine .trans (.append_right _ _) (.trans (.nest _ _) (.trans (.append_right _ _) ?_))
      refine .trans (.join _ (List.mem_map_of_mem hbranch)) (.trans (.append_right _ _) ?_)
      exact .trans (.nest _ _) (.append_right _ _)
  | pipe head stages =>
    rw [Expr.toDoc]
    rcases List.mem_cons.1 h with rfl | h
    · exact ⟨.pipe, (holds_parens _ _).trans (holds_spread_head _ _)⟩
    · refine ⟨.pipe, (holds_parens _ _).trans ?_⟩
      exact (holds_spread_part _ (List.mem_map_of_mem (hdocs h))).trans (.append_right _ _)

theorem Expr.Occurs.holds {e part : Expr} (h : part.Occurs e) (prec : Prec) :
    ∃ prec', (e.toDoc prec).Holds (part.toDoc prec') := by
  induction h with
  | refl => exact ⟨prec, .refl _⟩
  | tail _ hpart ih =>
    obtain ⟨prec', hholds⟩ := ih
    obtain ⟨prec'', hholds'⟩ := Expr.holds_part hpart prec'
    exact ⟨prec'', hholds.trans hholds'⟩

theorem Expr.names_part_subset {e part : Expr} (h : part ∈ e.parts) : part.names ⊆ e.names := by
  intro name hname
  cases e with
  | var | string | int => simp [parts] at h
  | app function arguments | pipe function arguments =>
    rcases List.mem_cons.1 h with rfl | h
    · exact List.mem_append_left _ hname
    · rw [Expr.names, exprNames_eq_flatMap]
      exact List.mem_append_right _ (List.mem_flatMap.2 ⟨part, h, hname⟩)
  | lambda params body =>
    obtain rfl : part = body := List.mem_singleton.1 h
    exact List.mem_append_right _ hname
  | list items | tuple items =>
    rw [Expr.names, exprNames_eq_flatMap]
    exact List.mem_flatMap.2 ⟨part, h, hname⟩
  | record fields =>
    obtain ⟨field, hfield, rfl⟩ := List.mem_map.1 h
    rw [Expr.names, fieldNames_eq_flatMap]
    exact List.mem_flatMap.2 ⟨field, hfield, List.mem_cons_of_mem _ hname⟩
  | access subject field =>
    obtain rfl : part = subject := List.mem_singleton.1 h
    exact List.mem_cons_of_mem _ hname
  | case scrutinee branches =>
    rcases List.mem_cons.1 h with rfl | h
    · exact List.mem_append_left _ hname
    · obtain ⟨branch, hbranch, rfl⟩ := List.mem_map.1 h
      rw [Expr.names, branchNames_eq_flatMap]
      exact List.mem_append_right _
        (List.mem_flatMap.2 ⟨branch, hbranch, List.mem_append_right _ hname⟩)

theorem Expr.Occurs.names_subset {e part : Expr} (h : part.Occurs e) : part.names ⊆ e.names := by
  induction h with
  | refl => exact List.Subset.refl _
  | tail _ hpart ih => exact List.Subset.trans (Expr.names_part_subset hpart) ih

/-- What a declaration says on its right-hand side is laid out somewhere in it. -/
theorem Decl.exists_within {name : String} {signature : TypeExpr} {body part : Expr}
    (h : part.Occurs body) {out : List Fragment}
    (hout : out ∈ (Decl.value name signature body).toDoc.layouts 0 .broken 0) :
    ∃ prec before inner after, Within (part.toDoc prec) 0 out before inner after := by
  obtain ⟨prec, hholds⟩ := h.holds .top
  have hbody : (Decl.value name signature body).toDoc.Holds (body.toDoc .top) :=
    .trans (.append_right _ _) (.trans (.nest _ _) (.append_right _ _))
  exact ⟨prec, (hbody.trans hholds) 0 .broken 0 out hout⟩

/-! ## The rule -/

theorem toList_best_mem_layouts (width : Nat) (d : Doc) :
    (best width 0 d).toList ∈ d.layouts 0 .broken 0 := by
  obtain ⟨out, hout, hlayout⟩ := exists_mem_layouts width d 0 .broken .nothing 0
  rw [best, hlayout]
  rwa [Rest.nothing, Fragments.toList, List.append_nil]

/-- **Printed code keeps to the offside rule on every page**, as long as no column is reached that
is not a signed number of 64 bits.

* Of an expression, a type or a pattern, whatever follows it, no line starts further left than the
  indentation that was given, if the code itself does not.
* Of a declaration, nothing is in the first column but the first line and, for a value, the line
  that starts the definition.
* Every case expression in a declaration is laid out somewhere, and wherever it is, all its patterns
  start in the same column and the lines of their bodies at least four columns further right. -/
theorem offside (width : Nat) :
    (∀ d, Printed d → ∀ (fits : Int → Nat → Bool) (indent column : Nat), indent ≤ column →
      ∃ out ∈ d.layouts indent .broken column,
        (∀ tail : Nat → Fragments, (d.layout width indent .broken ⟨fits, tail⟩ column).toList =
          out ++ (tail (columnAfter column out)).toList) ∧
        (InRange column out → ∀ n, .newline n ∈ out → indent ≤ n)) ∧
    (∀ decl : Decl, (∀ name ∈ decl.names, Text.IsWord name) →
      InRange 0 (best width 0 decl.toDoc).toList →
      (Text.lines (render width decl.toDoc)).filter Text.atMargin =
        (Text.lines (render width decl.toDoc)).head?.toList ++ decl.definition?.toList) ∧
    ∀ (name : String) (signature : TypeExpr) (body scrutinee : Expr)
      (branches : List (Pattern × Expr)),
      (∀ n ∈ (Decl.value name signature body).names, Text.IsWord n) →
      InRange 0 (best width 0 (Decl.value name signature body).toDoc).toList →
      (Expr.case scrutinee branches).Occurs body →
      (∃ prec before out after, Within ((Expr.case scrutinee branches).toDoc prec) 0
        (best width 0 (Decl.value name signature body).toDoc).toList before out after) ∧
      ∀ prec before out after, Within ((Expr.case scrutinee branches).toDoc prec) 0
        (best width 0 (Decl.value name signature body).toDoc).toList before out after →
        ∃ margin, ∀ branch ∈ branches, ∃ lead lines,
          BranchLines (render width (Decl.value name signature body).toDoc) before out margin
            branch lead lines := by
  refine ⟨?_, ?_, ?_⟩
  · intro d hd fits indent column hcolumn
    obtain ⟨out, hout, hlayout⟩ := exists_mem_layouts_of_fits width d indent .broken fits column
    exact ⟨out, hout, hlayout, hd.indent_le hcolumn hout⟩
  · intro decl hwords hrange
    rw [render_eq_written]
    exact Decl.filter_atMargin hwords (toList_best_mem_layouts width _) hrange
  · intro name signature body scrutinee branches hwords hrange hoccurs
    refine ⟨Decl.exists_within hoccurs (toList_best_mem_layouts width _), ?_⟩
    rintro prec before out after ⟨heq, indent, mode, hout⟩
    refine ⟨indent + 4, fun branch hbranch => ?_⟩
    have hnames : ∀ n ∈ branch.1.names ++ branch.2.names, Text.IsWord n := by
      intro n hn
      have hmem : n ∈ (Expr.case scrutinee branches).names := by
        rw [Expr.names, branchNames_eq_flatMap]
        exact List.mem_append_right _ (List.mem_flatMap.2 ⟨branch, hbranch, hn⟩)
      exact hwords n (List.mem_cons_of_mem _ (List.mem_append_right _ (hoccurs.names_subset hmem)))
    obtain ⟨hpattern, hbody⟩ := List.forall_mem_append.1 hnames
    rw [heq] at hrange
    rw [render_eq_written, heq]
    exact exists_branchLines hbranch hpattern hbody hout hrange.left.right

/-- The branches of an encoder of chains. -/
def chainBranches : List (Pattern × Expr) :=
  [(.ctor "End" [], .var "Json.Encode.null"),
    (.ctor "Link" [.var "item", .var "rest"],
      .app (.var "Json.Encode.list") [.var "identity",
        .list [.app (.var "encodeItem") [.var "item"], .app (.var "encodeChain") [.var "rest"]]])]

/-- The encoder that takes a chain apart. -/
def chainBody : Expr := .lambda [.var "chain"] (.case (.var "chain") chainBranches)

/-- The declaration of the encoder. -/
def encodeChain : Decl :=
  .value "encodeChain" (.function (.named "Chain" []) (.named "Value" [])) chainBody

/-- On a page of 40 columns the application in the second branch is broken, and the list in it. -/
theorem offside_encodeChain :
    (∀ name ∈ encodeChain.names, Text.IsWord name) ∧
    InRange 0 (best 40 0 encodeChain.toDoc).toList ∧
    (∃ out ∈ (chainBody.toDoc .top).layouts 4 .broken 4,
      (chainBody.toDoc .top |>.layout 40 4 .broken .nothing 4).toList = out ∧
        ∀ n, .newline n ∈ out → 4 ≤ n) ∧
    (Text.lines (render 40 encodeChain.toDoc)).filter Text.atMargin =
      (Text.lines (render 40 encodeChain.toDoc)).head?.toList ++ ["encodeChain ="] ∧
    ∃ prec before out after margin,
      Within ((Expr.case (.var "chain") chainBranches).toDoc prec) 0
        (best 40 0 encodeChain.toDoc).toList before out after ∧
      ∀ branch ∈ chainBranches, ∃ lead lines,
        BranchLines (render 40 encodeChain.toDoc) before out margin branch lead lines := by
  have hwords : ∀ name ∈ encodeChain.names, Text.IsWord name := by decide
  have hrange : InRange 0 (best 40 0 encodeChain.toDoc).toList := by decide
  have hoccurs : (Expr.case (.var "chain") chainBranches).Occurs chainBody :=
    .single (List.mem_singleton.2 rfl)
  obtain ⟨hprinted, hdecl, hcase⟩ := offside 40
  refine ⟨hwords, hrange, ?_, hdecl encodeChain hwords hrange, ?_⟩
  · obtain ⟨out, hout, hlayout, hindent⟩ :=
      hprinted _ (.expr chainBody .top) Rest.nothing.fits 4 4 (Nat.le_refl 4)
    have halone : (chainBody.toDoc .top |>.layout 40 4 .broken .nothing 4).toList = out :=
      (hlayout Rest.nothing.layout).trans (List.append_nil out)
    exact ⟨out, hout, halone, hindent (halone ▸ by decide)⟩
  · obtain ⟨⟨prec, before, out, after, hwithin⟩, hlines⟩ :=
      hcase _ _ chainBody (.var "chain") chainBranches hwords hrange hoccurs
    obtain ⟨margin, hmargin⟩ := hlines prec before out after hwithin
    exact ⟨prec, before, out, after, margin, hwithin, hmargin⟩

/-- **Behind the signed numbers the rule is broken.**  A list that starts there is taken to start
left of everything, and its lines go back to the first column, left of the indentation given. -/
theorem list_beyond_columns :
    Printed ((Expr.list [.var "a", .var "b"]).toDoc .top) ∧
      ((Expr.list [.var "a", .var "b"]).toDoc .top |>.layout 9223372036854775809 4 .broken .nothing
        9223372036854775818).toList =
        [.text "[ ", .text "a", .newline 0, .text ", ", .text "b", .newline 0, .text "]"] ∧
      ¬ ∀ n, .newline n ∈ ((Expr.list [.var "a", .var "b"]).toDoc .top |>.layout
        9223372036854775809 4 .broken .nothing 9223372036854775818).toList → 4 ≤ n := by
  have hlayout : ((Expr.list [.var "a", .var "b"]).toDoc .top |>.layout 9223372036854775809 4
      .broken .nothing 9223372036854775818).toList =
      [.text "[ ", .text "a", .newline 0, .text ", ", .text "b", .newline 0, .text "]"] := rfl
  refine ⟨.expr _ .top, hlayout, fun h => ?_⟩
  rw [hlayout] at h
  exact absurd (h 0 (by simp)) (by decide)

end Elm
end ElmWire
