import Mathlib.Data.List.Forall2

/-!
# Going through lists with steps that can fail

The codec and the evaluator go through lists with functions in `Except` and in `Option`.  Such a
walk succeeds exactly when every step does (`mapM_eq_ok_iff`), and otherwise fails for the reason of
the first step that fails (`reason?_mapM`).  Forgetting why a step failed commutes with it
(`toOption_mapM`).
-/

set_option autoImplicit false
namespace ElmWire

variable {ε α β γ : Type}

/-! ## With a reason -/

theorem bind_eq_ok_iff {x : Except ε α} {f : α → Except ε β} {b : β} :
    x >>= f = .ok b ↔ ∃ a, x = .ok a ∧ f a = .ok b := by
  cases x with
  | error e => simp [bind, Except.bind]
  | ok a => simp [bind, Except.bind]

theorem bind_eq_error_iff {x : Except ε α} {f : α → Except ε β} {e : ε} :
    x >>= f = .error e ↔ x = .error e ∨ ∃ a, x = .ok a ∧ f a = .error e := by
  cases x with
  | error e' => simp [bind, Except.bind]
  | ok a => simp [bind, Except.bind]

theorem map_eq_ok_iff {x : Except ε α} {f : α → β} {b : β} :
    x.map f = .ok b ↔ ∃ a, x = .ok a ∧ f a = b := by
  cases x with
  | error e => simp [Except.map]
  | ok a => simp [Except.map]

/-- Going through a list succeeds exactly when every item does. -/
theorem mapM_eq_ok_iff {f : α → Except ε β} {as : List α} {bs : List β} :
    as.mapM f = .ok bs ↔ List.Forall₂ (fun a b => f a = .ok b) as bs := by
  induction as generalizing bs with
  | nil =>
    rw [List.mapM_nil, List.forall₂_nil_left_iff]
    exact ⟨fun h => (Except.ok.inj h).symm, fun h => congrArg Except.ok h.symm⟩
  | cons a as ih =>
    rw [List.mapM_cons, bind_eq_ok_iff, List.forall₂_cons_left_iff]
    constructor
    · rintro ⟨b, hb, h⟩
      obtain ⟨rest, hrest, heq⟩ := bind_eq_ok_iff.1 h
      exact ⟨b, rest, hb, ih.1 hrest, (Except.ok.inj heq).symm⟩
    · rintro ⟨b, rest, hb, hrest, rfl⟩
      exact ⟨b, hb, bind_eq_ok_iff.2 ⟨rest, ih.2 hrest, rfl⟩⟩

/-- If every item succeeds, so does going through them. -/
theorem mapM_map_eq_ok {f : α → Except ε β} {slots : List γ} {g : γ → α} {k : γ → β}
    (h : ∀ slot ∈ slots, f (g slot) = .ok (k slot)) :
    (slots.map g).mapM f = .ok (slots.map k) := by
  rw [mapM_eq_ok_iff, List.forall₂_map_left_iff, List.forall₂_map_right_iff, List.forall₂_same]
  exact h

theorem mapM_congr_of_mem {f g : α → Except ε β} {as : List α} (h : ∀ a ∈ as, f a = g a) :
    as.mapM f = as.mapM g := by
  induction as with
  | nil => rfl
  | cons a as ih =>
    obtain ⟨hfirst, hrest⟩ := List.forall_mem_cons.1 h
    rw [List.mapM_cons, List.mapM_cons, hfirst, ih hrest]

/-- The reason for which something fails. -/
def reason? : Except ε α → Option ε
  | .ok _ => none
  | .error e => some e

theorem reason?_eq_some_iff {x : Except ε α} {e : ε} : reason? x = some e ↔ x = .error e := by
  cases x with
  | ok a => simp [reason?]
  | error e' => simp [reason?]

theorem reason?_map (f : α → β) (x : Except ε α) : reason? (x.map f) = reason? x := by
  cases x with
  | ok a => rfl
  | error e => rfl

theorem reason?_bind_pure (x : Except ε α) (f : α → β) :
    reason? (x >>= fun a => pure (f a)) = reason? x := by
  cases x <;> rfl

/-- What comes later only counts if what comes first succeeds. -/
theorem reason?_bind {x : Except ε α} {f : α → Except ε β} {r : Option ε}
    (h : ∀ a, reason? (f a) = r) : reason? (x >>= f) = (reason? x).or r := by
  cases x with
  | ok a => exact h a
  | error e => rfl

/-- A walk stops at the first step that fails. -/
theorem reason?_mapM (f : α → Except ε β) (as : List α) :
    reason? (as.mapM f) = as.findSome? fun a => reason? (f a) := by
  induction as with
  | nil => rfl
  | cons a as ih =>
    rw [List.mapM_cons, List.findSome?_cons, ← ih]
    cases f a with
    | error e => rfl
    | ok b =>
      cases as.mapM f with
      | error e => rfl
      | ok bs => rfl

/-- The reason for which a walk fails is that of one of its steps. -/
theorem exists_of_mapM_eq_error {f : α → Except ε β} {as : List α} {e : ε}
    (h : as.mapM f = .error e) : ∃ a ∈ as, f a = .error e := by
  rw [← reason?_eq_some_iff, reason?_mapM] at h
  obtain ⟨a, hmem, ha⟩ := List.exists_of_findSome?_eq_some h
  exact ⟨a, hmem, reason?_eq_some_iff.1 ha⟩

/-! ## Without a reason -/

theorem mapM_eq_some_of_forall₂ {f : α → Option β} {as : List α} {bs : List β}
    (h : List.Forall₂ (fun a b => f a = some b) as bs) : as.mapM f = some bs := by
  induction h with
  | nil => rfl
  | cons hfirst _ ih => rw [List.mapM_cons, hfirst, Option.bind_eq_bind, Option.bind_some, ih]; rfl

theorem mapM_map_eq_some {f : α → Option β} {slots : List γ} {g : γ → α} {k : γ → β}
    (h : ∀ slot ∈ slots, f (g slot) = some (k slot)) :
    (slots.map g).mapM f = some (slots.map k) := by
  refine mapM_eq_some_of_forall₂ ?_
  rw [List.forall₂_map_left_iff, List.forall₂_map_right_iff, List.forall₂_same]
  exact h

theorem length_of_mapM_eq_some {f : α → Option β} {as : List α} {bs : List β}
    (h : as.mapM f = some bs) : bs.length = as.length := by
  induction as generalizing bs with
  | nil =>
    cases h
    rfl
  | cons a as ih =>
    rw [List.mapM_cons] at h
    obtain ⟨b, -, h⟩ := Option.bind_eq_some_iff.1 h
    obtain ⟨rest, hrest, h⟩ := Option.bind_eq_some_iff.1 h
    cases h
    rw [List.length_cons, List.length_cons, ih hrest]

theorem exists_of_mapM_eq_some {f : α → Option β} {as : List α} {bs : List β}
    (h : as.mapM f = some bs) : ∀ a ∈ as, ∃ b ∈ bs, f a = some b := by
  induction as generalizing bs with
  | nil => simp
  | cons a as ih =>
    rw [List.mapM_cons] at h
    obtain ⟨b, hb, h⟩ := Option.bind_eq_some_iff.1 h
    obtain ⟨rest, hrest, h⟩ := Option.bind_eq_some_iff.1 h
    cases h
    refine List.forall_mem_cons.2 ⟨⟨b, List.mem_cons_self .., hb⟩, fun a ha => ?_⟩
    obtain ⟨b, hmem, hb⟩ := ih hrest a ha
    exact ⟨b, List.mem_cons_of_mem _ hmem, hb⟩

theorem mapM_map_option (f : α → Option β) (g : β → γ) (as : List α) :
    (as.mapM fun a => (f a).map g) = (as.mapM f).map (List.map g) := by
  induction as with
  | nil => rfl
  | cons a as ih =>
    rw [List.mapM_cons, List.mapM_cons, ih]
    cases f a with
    | none => rfl
    | some b => cases as.mapM f <;> rfl

theorem mapM_map_zip (f : α → Option β) (g : α → γ) (as : List α) :
    (as.mapM fun a => (f a).map fun b => (g a, b)) = (as.mapM f).map ((as.map g).zip ·) := by
  induction as with
  | nil => rfl
  | cons a as ih =>
    rw [List.mapM_cons, List.mapM_cons, ih]
    cases f a with
    | none => rfl
    | some b => cases as.mapM f <;> rfl

/-! ## Forgetting the reason -/

theorem toOption_eq_some_iff {x : Except ε α} {a : α} : x.toOption = some a ↔ x = .ok a := by
  cases x with
  | error e => simp [Except.toOption]
  | ok b => simp [Except.toOption]

theorem toOption_bind (x : Except ε α) (f : α → Except ε β) :
    (x >>= f).toOption = x.toOption.bind fun a => (f a).toOption := by
  cases x <;> rfl

theorem toOption_bind_pure (x : Except ε α) (f : α → β) :
    (x >>= fun a => pure (f a)).toOption = x.toOption.map f := by
  cases x <;> rfl

theorem toOption_map (x : Except ε α) (f : α → β) : (x.map f).toOption = x.toOption.map f := by
  cases x <;> rfl

theorem toOption_mapM (f : α → Except ε β) (as : List α) :
    (as.mapM f).toOption = as.mapM fun a => (f a).toOption := by
  induction as with
  | nil => rfl
  | cons a as ih =>
    rw [List.mapM_cons, List.mapM_cons, toOption_bind]
    simp only [toOption_bind, ih]
    rfl

/-! ## Lists side by side -/

theorem exists_pairs_of_forall₂ {α β : Type} {R : α → β → Prop} {as : List α} {bs : List β}
    (h : List.Forall₂ R as bs) :
    ∃ pairs : List (α × β), as = pairs.map Prod.fst ∧ bs = pairs.map Prod.snd ∧
      ∀ pair ∈ pairs, R pair.1 pair.2 := by
  refine ⟨as.zip bs, ?_, ?_, fun pair hmem => (List.forall₂_iff_zip.1 h).2 hmem⟩
  · rw [List.map_fst_zip (Nat.le_of_eq h.length_eq)]
  · rw [List.map_snd_zip (Nat.le_of_eq h.length_eq.symm)]

theorem exists_pairs_of_forall_exists {α β : Type} {R : α → β → Prop} {as : List α}
    (h : ∀ a ∈ as, ∃ b, R a b) :
    ∃ pairs : List (α × β), as = pairs.map Prod.fst ∧ ∀ pair ∈ pairs, R pair.1 pair.2 := by
  induction as with
  | nil => exact ⟨[], rfl, by simp⟩
  | cons a as ih =>
    obtain ⟨b, hb⟩ := h a (List.mem_cons_self ..)
    obtain ⟨pairs, rfl, hpairs⟩ := ih fun a hmem => h a (List.mem_cons_of_mem _ hmem)
    exact ⟨(a, b) :: pairs, rfl, List.forall_mem_cons.2 ⟨hb, hpairs⟩⟩

theorem exists_mem_iff_of_forall₂ {α β : Type} {P : α → Prop} {Q : β → Prop} {as : List α}
    {bs : List β} (h : List.Forall₂ (fun a b => P a ↔ Q b) as bs) :
    (∃ a ∈ as, P a) ↔ ∃ b ∈ bs, Q b := by
  induction h with
  | nil => simp
  | cons hfirst _ ih => simp [hfirst, ih]

theorem forall_mem_iff_of_forall₂ {α β : Type} {P : α → Prop} {Q : β → Prop} {as : List α}
    {bs : List β} (h : List.Forall₂ (fun a b => P a ↔ Q b) as bs) :
    (∀ a ∈ as, P a) ↔ ∀ b ∈ bs, Q b := by
  induction h with
  | nil => simp
  | cons hfirst _ ih => simp [hfirst, ih]

theorem flatMap_eq_of_forall₂ {f : α → List γ} {g : β → List γ} {as : List α}
    {bs : List β} (h : List.Forall₂ (fun a b => f a = g b) as bs) :
    as.flatMap f = bs.flatMap g := by
  induction h with
  | nil => rfl
  | cons hfirst _ ih => rw [List.flatMap_cons, List.flatMap_cons, hfirst, ih]

/-- Everything in a list is related to something exactly when the list is related to some list. -/
theorem exists_forall₂_iff {α β : Type} {R : α → β → Prop} {as : List α} :
    (∃ bs, List.Forall₂ R as bs) ↔ ∀ a ∈ as, ∃ b, R a b := by
  induction as with
  | nil => simp
  | cons a as ih => simp [List.forall₂_cons_left_iff, ← ih]

end ElmWire
