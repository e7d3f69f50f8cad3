/-!
# Cutting text into pieces

`Text.split` cuts at every occurrence of a separator: lines at the line breaks, paths at the
slashes, module names at the points.
-/

set_option autoImplicit false
namespace ElmWire.Text

/-- Puts a character in front of the first piece. -/
def consFirst (c : Char) : List (List Char) → List (List Char)
  | [] => [[c]]
  | piece :: rest => (c :: piece) :: rest

/-- Cuts characters at a separator.  There is always one piece more than there are separators. -/
def split (separator : Char) : List Char → List (List Char)
  | [] => [[]]
  | c :: cs => if c = separator then [] :: split separator cs else consFirst c (split separator cs)

/-- Cuts a text at a separator. -/
def pieces (separator : Char) (s : String) : List String :=
  (split separator s.toList).map String.ofList

theorem consFirst_ne_nil (c : Char) (rest : List (List Char)) : consFirst c rest ≠ [] := by
  cases rest <;> simp [consFirst]

theorem split_ne_nil (separator : Char) (cs : List Char) : split separator cs ≠ [] := by
  cases cs with
  | nil => simp [split]
  | cons c cs =>
    by_cases h : c = separator
    · simp [split, h]
    · simpa [split, h] using consFirst_ne_nil c _

theorem intercalate_consFirst (separator c : Char) {rest : List (List Char)} (h : rest ≠ []) :
    [separator].intercalate (consFirst c rest) = c :: [separator].intercalate rest := by
  match rest, h with
  | [_], _ => simp [consFirst, List.intercalate]
  | _ :: _ :: _, _ => simp [consFirst, List.intercalate]

/-- Nothing is lost: the pieces with the separator between them are the text again. -/
theorem intercalate_split (separator : Char) (cs : List Char) :
    [separator].intercalate (split separator cs) = cs := by
  induction cs with
  | nil => simp [split, List.intercalate]
  | cons c cs ih =>
    by_cases h : c = separator
    · subst h
      obtain ⟨piece, rest, eq⟩ := List.exists_cons_of_ne_nil (split_ne_nil c cs)
      rw [eq] at ih
      simp only [split, if_true, eq]
      rw [← ih]
      simp [List.intercalate]
    · simp only [split, h, if_false]
      rw [intercalate_consFirst separator c (split_ne_nil separator cs), ih]

end ElmWire.Text
