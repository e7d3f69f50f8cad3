import ElmWire.Proofs.Layout.Laws

/-!
# Hard line breaks

A look ahead stops at the end of the line.  It makes no difference to it whether the line ends
because of a hard line break or because there is no more text, so what stands in front of a hard
line break is laid out as if nothing followed.  Behind the line break the layout starts over: in the
first column, without an indentation, and with nothing owed to the line.

So **a hard line break separates two layouts completely** (`hardline_separates`), and a document of
several lines is a text of several lines, each of them laid out by itself.
-/

set_option autoImplicit false
namespace ElmWire.Layout

/-! ## Fragments -/

/-- A hard line break, and then the rest: whatever the rest is, the line fits. -/
theorem before_hardline (width indent : Nat) (rest : Rest) :
    Doc.hardline.before width indent .broken rest =
      ⟨Rest.nothing.fits, fun _ => .emit (.newline indent) fun _ => rest.layout indent⟩ := rfl

theorem toList_best_hardline (width start : Nat) (a b : Doc) :
    (best width start (a ++ .hardline ++ b)).toList =
      (best width start a).toList ++ .newline 0 :: (best width 0 b).toList := by
  obtain ⟨out, -, hout⟩ := exists_mem_layouts_of_fits width a 0 .broken Rest.nothing.fits start
  have halone : (best width start a).toList = out :=
    (hout Rest.nothing.layout).trans (List.append_nil out)
  rw [halone, best_eq_before, Doc.before_append, Doc.before_append, before_hardline]
  exact hout _

/-! ## Text -/

/-- A page with text in front of what is written on it. -/
def Page.behind (page : Page) (s : String) : Page := ⟨s ++ page.text, page.owed⟩

theorem Page.write_behind (page : Page) (s : String) (fragment : Fragment) :
    (page.behind s).write fragment = (page.write fragment).behind s := by
  cases fragment with
  | newline indent => simp [write, behind, String.push_eq_append, String.append_assoc]
  | text t =>
    by_cases hempty : t.isEmpty
    · simp [write, hempty]
    · simp [write, hempty, behind, String.append_assoc]

/-- What is on a page already stays in front of what is written on it. -/
theorem Page.foldl_write_behind (fragments : List Fragment) (page : Page) (s : String) :
    fragments.foldl write (page.behind s) = (fragments.foldl write page).behind s := by
  induction fragments generalizing page with
  | nil => rfl
  | cons fragment rest ih => rw [List.foldl_cons, List.foldl_cons, write_behind, ih]

theorem render_hardline (width : Nat) (a b : Doc) :
    render width (a ++ .hardline ++ b) = render width a ++ "\n" ++ render width b := by
  have hrender : ∀ d, render width d = ((best width 0 d).toList.foldl Page.write ⟨"", 0⟩).text :=
    fun d => by rw [render, Fragments.foldl_eq]
  -- The line break takes back the indentation that the first document may have left owed.
  have hbreak : ∀ page : Page,
      page.write (.newline 0) = Page.behind ⟨"", 0⟩ (page.text ++ "\n") := by
    intro page
    simp [Page.write, Page.behind, String.push_eq_append]
  rw [hrender, toList_best_hardline, List.foldl_append, List.foldl_cons, hbreak,
    Page.foldl_write_behind, hrender, hrender]
  rfl

theorem render_foldl_hardline (width : Nat) (first : Doc) (rest : List Doc) :
    render width (rest.foldl (fun joined d => joined ++ .hardline ++ d) first) =
      "\n".intercalate (render width first :: rest.map (render width)) := by
  induction rest generalizing first with
  | nil => simp
  | cons d rest ih =>
    rw [List.foldl_cons, ih, render_hardline, String.intercalate_cons_append, List.map_cons,
      String.intercalate_cons_cons]

/-- **A hard line break separates two layouts completely.** -/
theorem hardline_separates (width : Nat) :
    (∀ (start : Nat) (a b : Doc),
      (best width start (a ++ .hardline ++ b)).toList =
        (best width start a).toList ++ .newline 0 :: (best width 0 b).toList) ∧
    ∀ docs : List Doc, render width (.lines docs) = "\n".intercalate (docs.map (render width)) := by
  refine ⟨toList_best_hardline width, fun docs => ?_⟩
  cases docs with
  | nil => rfl
  | cons first rest => exact render_foldl_hardline width first rest

end ElmWire.Layout
