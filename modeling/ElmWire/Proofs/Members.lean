import Mathlib.Data.List.Nodup
import Mathlib.Data.String.Basic
import ElmWire.Members

/-!
# Members are determined by looking them up

Members are kept in increasing order of their names.  What that buys is extensionality: two ordered
collections that agree on every look-up are the same list (`Ordered.ext`), so that an encoder and a
decoder that insert in different orders can be compared name by name.

* `Members.Ordered` — the names increase.  `insert` and `ofList` keep to it (`ordered_insert`,
  `ordered_ofList`).
* `lookup_ofList` — the last pair with a name counts; `lookup_ofList_of_nodup` — where no name is
  repeated, any pair does.
* `perm_ofList` — where no name is repeated, the members are the pairs, in the order of their names.
* `ofList_map` — collecting commutes with a change of the values.
-/

set_option autoImplicit false
namespace ElmWire.Members

variable {α β : Type}

/-- The names increase from one member to the next. -/
def Ordered (members : Members α) : Prop := members.Pairwise fun a b => a.1 < b.1

instance (members : Members α) : Decidable (Ordered members) :=
  inferInstanceAs (Decidable (members.Pairwise fun a b => a.1 < b.1))

/-! ## Looking up in a list of pairs -/

theorem lookup_eq_none_of_forall_ne {pairs : List (String × α)} {key : String}
    (h : ∀ pair ∈ pairs, key ≠ pair.1) : pairs.lookup key = none := by
  rw [List.lookup_eq_none_iff]
  intro pair hmem
  simpa using h pair hmem

theorem mem_of_lookup_eq_some {pairs : List (String × α)} {key : String} {a : α}
    (h : pairs.lookup key = some a) : (key, a) ∈ pairs := by
  obtain ⟨before, after, hpairs, -⟩ := List.lookup_eq_some_iff.1 h
  rw [hpairs]
  simp

theorem exists_lookup_of_mem_names {pairs : List (String × α)} {key : String}
    (h : key ∈ pairs.map Prod.fst) : ∃ a, pairs.lookup key = some a := by
  cases hfound : pairs.lookup key with
  | some a => exact ⟨a, rfl⟩
  | none =>
    obtain ⟨pair, hmem, rfl⟩ := List.mem_map.1 h
    simpa using List.lookup_eq_none_iff.1 hfound pair hmem

/-- Where no name is repeated, every pair is found under its name. -/
theorem lookup_eq_some_of_mem {pairs : List (String × α)} (hnodup : (pairs.map Prod.fst).Nodup)
    {key : String} {a : α} (hmem : (key, a) ∈ pairs) : pairs.lookup key = some a := by
  induction pairs with
  | nil => simp at hmem
  | cons head rest ih =>
    obtain ⟨other, b⟩ := head
    rw [List.map_cons, List.nodup_cons] at hnodup
    rcases List.mem_cons.1 hmem with heq | hmem
    · cases heq
      simp
    · have hne : key ≠ other := by
        intro heq
        exact hnodup.1 (heq ▸ List.mem_map.2 ⟨(key, a), hmem, rfl⟩)
      rw [List.lookup_cons, beq_eq_false_iff_ne.2 hne]
      exact ih hnodup.2 hmem

theorem lookup_map (f : α → β) (pairs : List (String × α)) (key : String) :
    (pairs.map fun pair => (pair.1, f pair.2)).lookup key = (pairs.lookup key).map f := by
  induction pairs with
  | nil => rfl
  | cons head rest ih =>
    rw [List.map_cons, List.lookup_cons, List.lookup_cons, ih]
    split <;> rfl

/-! ## Order -/

theorem Ordered.nodup_names {members : Members α} (h : Ordered members) :
    (members.map Prod.fst).Nodup := by
  rw [List.Nodup, List.pairwise_map]
  exact h.imp fun hlt heq => absurd (heq ▸ hlt) (lt_irrefl _)

theorem mem_insert {name : String} {a : α} {members : Members α} {pair : String × α}
    (h : pair ∈ insert name a members) : pair = (name, a) ∨ pair ∈ members := by
  induction members with
  | nil => simpa [insert] using h
  | cons head rest ih =>
    obtain ⟨other, b⟩ := head
    rw [insert] at h
    split at h
    · exact List.mem_cons.1 h
    · split at h
      · rcases List.mem_cons.1 h with h | h
        · exact .inl h
        · exact .inr (List.mem_cons_of_mem _ h)
      · rcases List.mem_cons.1 h with h | h
        · exact .inr (h ▸ List.mem_cons_self)
        · exact (ih h).imp_right (List.mem_cons_of_mem _)

theorem ordered_insert (name : String) (a : α) {members : Members α} (h : Ordered members) :
    Ordered (insert name a members) := by
  induction members with
  | nil => exact List.pairwise_singleton _ _
  | cons head rest ih =>
    obtain ⟨other, b⟩ := head
    obtain ⟨hother, hrest⟩ := List.pairwise_cons.1 h
    rw [insert]
    split
    · next hlt =>
      refine List.pairwise_cons.2 ⟨fun pair hmem => ?_, h⟩
      rcases List.mem_cons.1 hmem with rfl | hmem
      · exact hlt
      · exact lt_trans hlt (hother pair hmem)
    · next hnlt =>
      split
      · next heq => exact List.pairwise_cons.2 ⟨heq ▸ hother, hrest⟩
      · next hne =>
        refine List.pairwise_cons.2 ⟨fun pair hmem => ?_, ih hrest⟩
        rcases mem_insert hmem with rfl | hmem
        · exact lt_of_le_of_ne (not_lt.1 hnlt) (Ne.symm hne)
        · exact hother pair hmem

/-- **Ordered members are determined by looking them up.** -/
theorem Ordered.ext {members others : Members α} (hmembers : Ordered members)
    (hothers : Ordered others) (h : ∀ key, members.lookup key = others.lookup key) :
    members = others := by
  have hmem : ∀ {ms ns : Members α}, Ordered ms → (∀ key, ms.lookup key = ns.lookup key) →
      ∀ pair ∈ ms, pair ∈ ns := by
    intro ms ns hms hlookup pair hpair
    have hfound : ms.lookup pair.1 = some pair.2 := lookup_eq_some_of_mem hms.nodup_names hpair
    exact mem_of_lookup_eq_some ((hlookup pair.1).symm.trans hfound)
  have hanti : ∀ a b : String × α, a ∈ members → b ∈ others → a.1 < b.1 → b.1 < a.1 → a = b :=
    fun _ _ _ _ hab hba => absurd (lt_trans hab hba) (lt_irrefl _)
  refine List.Perm.eq_of_pairwise hanti hmembers hothers ?_
  refine (List.perm_ext_iff_of_nodup hmembers.nodup_names.of_map hothers.nodup_names.of_map).2 ?_
  intro pair
  exact ⟨hmem hmembers h pair, hmem hothers (fun key => (h key).symm) pair⟩

/-! ## Collecting pairs -/

theorem ordered_foldl_insert (pairs : List (String × α)) {members : Members α}
    (h : Ordered members) :
    Ordered (pairs.foldl (fun members pair => insert pair.1 pair.2 members) members) := by
  induction pairs generalizing members with
  | nil => exact h
  | cons pair rest ih => exact ih (ordered_insert pair.1 pair.2 h)

theorem ordered_ofList (pairs : List (String × α)) : Ordered (ofList pairs) :=
  ordered_foldl_insert pairs List.Pairwise.nil

theorem lookup_foldl_insert (pairs : List (String × α)) (members : Members α) (key : String) :
    (pairs.foldl (fun members pair => insert pair.1 pair.2 members) members).lookup key =
      (pairs.reverse.lookup key).or (members.lookup key) := by
  induction pairs generalizing members with
  | nil => simp
  | cons pair rest ih =>
    obtain ⟨name, a⟩ := pair
    rw [List.foldl_cons, ih, List.reverse_cons, List.lookup_append, Option.or_assoc]
    congr 1
    by_cases heq : key = name
    · subst heq
      simp
    · rw [lookup_insert_of_ne heq, List.lookup_cons, beq_eq_false_iff_ne.2 heq]
      simp

/-- The last pair with a name counts. -/
theorem lookup_ofList (pairs : List (String × α)) (key : String) :
    (ofList pairs).lookup key = pairs.reverse.lookup key := by
  rw [ofList, lookup_foldl_insert]
  simp

theorem mem_of_mem_ofList {pairs : List (String × α)} {pair : String × α}
    (h : pair ∈ ofList pairs) : pair ∈ pairs := by
  have hfound := lookup_eq_some_of_mem (ordered_ofList pairs).nodup_names h
  rw [lookup_ofList] at hfound
  exact List.mem_reverse.1 (mem_of_lookup_eq_some hfound)

theorem mem_names_ofList {pairs : List (String × α)} {key : String} :
    key ∈ (ofList pairs).map Prod.fst ↔ key ∈ pairs.map Prod.fst := by
  constructor
  · intro h
    obtain ⟨a, ha⟩ := exists_lookup_of_mem_names h
    rw [lookup_ofList] at ha
    exact List.mem_map.2 ⟨_, List.mem_reverse.1 (mem_of_lookup_eq_some ha), rfl⟩
  · intro h
    rw [← List.mem_reverse, ← List.map_reverse] at h
    obtain ⟨a, ha⟩ := exists_lookup_of_mem_names h
    rw [← lookup_ofList] at ha
    exact List.mem_map.2 ⟨_, mem_of_lookup_eq_some ha, rfl⟩

theorem lookup_ofList_of_nodup {pairs : List (String × α)} (hnodup : (pairs.map Prod.fst).Nodup)
    (key : String) : (ofList pairs).lookup key = pairs.lookup key := by
  rw [lookup_ofList]
  cases hfound : pairs.lookup key with
  | none =>
    rw [List.lookup_eq_none_iff] at hfound ⊢
    simpa using hfound
  | some a =>
    refine lookup_eq_some_of_mem ?_ (List.mem_reverse.2 (mem_of_lookup_eq_some hfound))
    rw [List.map_reverse, List.nodup_reverse]
    exact hnodup

theorem ofList_append_singleton (pairs : List (String × α)) (name : String) (a : α) :
    ofList (pairs ++ [(name, a)]) = insert name a (ofList pairs) := List.foldl_append

/-- **One step**: a member with a new name is one more. -/
theorem perm_insert {name : String} {members : Members α} (h : name ∉ members.map Prod.fst)
    (a : α) : (insert name a members).Perm ((name, a) :: members) := by
  induction members with
  | nil => exact .refl _
  | cons head rest ih =>
    obtain ⟨other, b⟩ := head
    rw [List.map_cons, List.mem_cons, not_or] at h
    rw [insert]
    split
    · exact .refl _
    · rw [if_neg h.1]
      exact ((ih h.2).cons _).trans (.swap ..)

/-- **Any number of steps**: where no name is repeated, nothing is overwritten. -/
theorem perm_foldl_insert {pairs : List (String × α)} {members : Members α}
    (h : ((pairs ++ members).map Prod.fst).Nodup) :
    (pairs.foldl (fun members pair => insert pair.1 pair.2 members) members).Perm
      (pairs ++ members) := by
  induction pairs generalizing members with
  | nil => exact .refl _
  | cons pair rest ih =>
    have hnew : pair.1 ∉ members.map Prod.fst := by
      rw [List.cons_append, List.map_cons, List.nodup_cons, List.map_append] at h
      exact fun hmem => h.1 (List.mem_append_right _ hmem)
    have hstep : (rest ++ insert pair.1 pair.2 members).Perm (pair :: rest ++ members) :=
      ((perm_insert hnew pair.2).append_left rest).trans List.perm_middle
    exact (ih ((hstep.map Prod.fst).nodup_iff.2 h)).trans hstep

/-- **Where no name is repeated, nothing is lost** when pairs are collected. -/
theorem perm_ofList {pairs : List (String × α)} (h : (pairs.map Prod.fst).Nodup) :
    (ofList pairs).Perm pairs := by
  have hperm := @perm_foldl_insert _ pairs [] (by rwa [List.append_nil])
  rwa [List.append_nil] at hperm

theorem ordered_map (f : α → β) {members : Members α} (h : Ordered members) :
    Ordered (members.map fun pair => (pair.1, f pair.2)) := by
  rw [Ordered, List.pairwise_map]
  exact h

/-- Collecting commutes with a change of the values. -/
theorem ofList_map (f : α → β) (pairs : List (String × α)) :
    ofList (pairs.map fun pair => (pair.1, f pair.2)) =
      (ofList pairs).map fun pair => (pair.1, f pair.2) := by
  refine (ordered_ofList _).ext (ordered_map f (ordered_ofList pairs)) fun key => ?_
  rw [lookup_ofList, lookup_map, lookup_ofList, ← List.map_reverse, lookup_map]

end ElmWire.Members
