/-!
# Text up to blanks

Where lines are broken and how far they are indented is of no consequence to who reads the text as
code.  `squeeze` brings a text into a form that is free of it: a single space stands for every run
of spaces and line breaks, and none stands before a comma.

It takes two passes over the whole text, but can be had in one from the right, a character at a time
(`squeeze_eq`).  That way it can be said what a text comes to in front of another (`onto`), and so
that two texts come to the same in front of any.
-/

set_option autoImplicit false
namespace ElmWire.Text

/-- Is it a space or a line break? -/
def isBlank (c : Char) : Bool := c = ' ' || c = '\n'

/-- A single space in place of every run of blanks. -/
def collapse : List Char → List Char
  | [] => []
  | c :: rest =>
    if isBlank c then
      -- It is the last blank of a run that the space takes the place of.
      if rest.head?.any isBlank then collapse rest else ' ' :: collapse rest
    else c :: collapse rest

/-- The text without the blanks that stand directly before a comma. -/
def tighten : List Char → List Char
  | [] => []
  | c :: rest => if isBlank c && rest.head? = some ',' then tighten rest else c :: tighten rest

/-- The text with a single space for every run of blanks, and with none before a comma. -/
def squeeze (s : String) : String := String.ofList (tighten (collapse s.toList))

/-! ## From the right -/

/-- A character in front of squeezed text. -/
def put (c : Char) (out : List Char) : List Char :=
  if isBlank c then if out.head? = some ' ' ∨ out.head? = some ',' then out else ' ' :: out
  else c :: out

/-- A text in front of squeezed text. -/
def onto (s : String) (out : List Char) : List Char := s.toList.foldr put out

theorem put_of_blank {c : Char} (h : isBlank c = true) (out : List Char) :
    put c out = if out.head? = some ' ' ∨ out.head? = some ',' then out else ' ' :: out :=
  if_pos h

theorem put_of_not_blank {c : Char} (h : isBlank c = false) (out : List Char) :
    put c out = c :: out := by
  rw [put, h]
  rfl

/-- Behind a blank, a blank makes no difference. -/
theorem put_put {c d : Char} (hc : isBlank c = true) (hd : isBlank d = true) (out : List Char) :
    put c (put d out) = put c out := by
  rw [put_of_blank hd, put_of_blank hc out]
  split
  · next h => rw [put_of_blank hc, if_pos h]
  · rw [put_of_blank hc, if_pos (.inl rfl)]

/-- In front of a comma, a blank makes no difference. -/
theorem put_comma {c : Char} (hc : isBlank c = true) (out : List Char) :
    put c (put ',' out) = put ',' out := by
  have hcomma : put ',' out = ',' :: out := put_of_not_blank (by decide) out
  rw [hcomma, put_of_blank hc, if_pos (.inr rfl)]

theorem onto_empty (out : List Char) : onto "" out = out := rfl

theorem onto_ofList (cs out : List Char) : onto (String.ofList cs) out = cs.foldr put out := by
  rw [onto, String.toList_ofList]

theorem onto_append (s t : String) (out : List Char) :
    onto (s ++ t) out = onto s (onto t out) := by
  rw [onto, String.toList_append, List.foldr_append]
  rfl

theorem onto_push (s : String) (c : Char) (out : List Char) :
    onto (s.push c) out = onto s (put c out) := by
  rw [onto, String.toList_push, List.foldr_append]
  rfl

/-- Texts that come to the same can replace each other between separators. -/
theorem onto_intercalate {α : Type} {f g : α → String}
    (h : ∀ a out, onto (f a) out = onto (g a) out)
    (separator : String) (as : List α) (out : List Char) :
    onto (separator.intercalate (as.map f)) out = onto (separator.intercalate (as.map g)) out := by
  induction as generalizing out with
  | nil => rfl
  | cons a as ih =>
    cases as with
    | nil =>
      rw [List.map_singleton, List.map_singleton, String.intercalate_singleton,
        String.intercalate_singleton, h]
    | cons b as =>
      rw [List.map_cons, List.map_cons, List.map_cons, List.map_cons, String.intercalate_cons_cons,
        String.intercalate_cons_cons, ← List.map_cons, ← List.map_cons, onto_append, onto_append,
        onto_append, onto_append, h, ih]

/-- Text that does not start with a blank stays as it is there, in either pass. -/
theorem head?_tighten_collapse {cs : List Char} (h : cs.head?.any isBlank = false) :
    (collapse cs).head? = cs.head? ∧ (tighten (collapse cs)).head? = cs.head? := by
  cases cs with
  | nil => exact ⟨rfl, rfl⟩
  | cons c rest =>
    have hc : isBlank c = false := h
    simp [collapse, tighten, hc]

theorem tighten_collapse (cs : List Char) : tighten (collapse cs) = cs.foldr put [] := by
  induction cs with
  | nil => rfl
  | cons c rest ih =>
    rw [List.foldr_cons, ← ih]
    cases hc : isBlank c with
    | false => simp [collapse, tighten, put, hc]
    | true =>
      cases hrest : rest.head?.any isBlank with
      | true =>
        -- The run goes on, and is in front of the rest already.
        obtain ⟨d, rest, rfl⟩ : ∃ d tail, rest = d :: tail := by
          cases rest with
          | nil => cases hrest
          | cons d tail => exact ⟨d, tail, rfl⟩
        rw [collapse, if_pos hc, if_pos hrest, ih, List.foldr_cons, put_put hc hrest,
          put_of_blank hc, put_of_blank hrest]
      | false =>
        obtain ⟨hcollapse, htighten⟩ := head?_tighten_collapse hrest
        rw [collapse, if_pos hc, hrest, put_of_blank hc, htighten]
        have hspace : rest.head? ≠ some ' ' := by
          intro h
          simp [h, isBlank] at hrest
        by_cases hcomma : rest.head? = some ','
        · simp [tighten, hcollapse, hcomma, isBlank]
        · simp [tighten, hcollapse, hcomma, hspace]

/-- The two passes come to one. -/
theorem squeeze_eq (s : String) : squeeze s = String.ofList (onto s []) := by
  rw [squeeze, tighten_collapse]
  rfl

example : squeeze "xs =\n    [ 1\n    , 2\n    ]" = "xs = [ 1, 2 ]" := by decide

end ElmWire.Text
