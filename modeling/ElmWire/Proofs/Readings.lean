/-!
# At most one reading

A grammar says how tokens are read: they start with a phrase, and some are left.  A phrase may have
a longer reading and a shorter one, so only those count that go as far as they can, where the next
token is none that goes on with the phrase.  One token ahead is enough for all grammars here.

* `Only R goesOn ts a rest` — no other reading of the tokens counts.
* `Only.map`, `Only.before`, `Only.seq` — phrases that are put together from others.
  `Only.labelled` is for those that have a name in front of them.
* `Many`, `Separated` — lists of phrases, up to where there are no more, and with commas between
  them up to what closes their bracket.  `Chained` is for those that are not in brackets.
-/

set_option autoImplicit false
namespace ElmWire.Readings

variable {τ α β γ : Type}

/-- Is the first token one of these? -/
def startsWith (p : τ → Bool) (ts : List τ) : Bool := ts.head?.any p

/-- A token that goes on with nothing. -/
def never (_ : τ) : Bool := false

theorem startsWith_never (ts : List τ) : startsWith never ts = false := by
  cases ts <;> rfl

/-- One of these tokens, or this one. -/
def orToken [DecidableEq τ] (p : τ → Bool) (other t : τ) : Bool := p t || t = other

theorem stops_of_orToken [DecidableEq τ] {p : τ → Bool} {other : τ} {ts : List τ}
    (h : startsWith (orToken p other) ts = false) :
    startsWith p ts = false ∧ ∀ us, ts ≠ other :: us := by
  cases ts with
  | nil => exact ⟨rfl, fun us heq => List.cons_ne_nil other us heq.symm⟩
  | cons t ts =>
    obtain ⟨hp, hne⟩ := Bool.or_eq_false_iff.1 h
    exact ⟨hp, fun us heq => of_decide_eq_false hne (List.head_eq_of_cons_eq heq)⟩

/-- Tokens start with an `α`, and some are left. -/
abbrev Reader (τ α : Type) := List τ → α → List τ → Prop

/-- A name, a mark, and then a phrase. -/
def labelled (word : String → τ) (mark : τ) (R : Reader τ α) : Reader τ (String × α) :=
  fun ts x rest => ∃ us, ts = word x.1 :: mark :: us ∧ R us x.2 rest

/-- Of the readings that go as far as they can, there is no other. -/
def Only (R : Reader τ α) (goesOn : τ → Bool) (ts : List τ) (a : α) (rest : List τ) : Prop :=
  startsWith goesOn rest = false → ∀ ⦃a' : α⦄ ⦃rest' : List τ⦄, R ts a' rest' →
    startsWith goesOn rest' = false → a' = a ∧ rest' = rest

namespace Only

variable {R : Reader τ α} {S : Reader τ β} {T : Reader τ γ} {p q : τ → Bool} {ts us rest : List τ}
  {a : α} {b : β}

/-- There is no other reading at all. -/
theorem intro (h : ∀ a' rest', R ts a' rest' → a' = a ∧ rest' = rest) : Only R p ts a rest :=
  fun _ _ _ h' _ => h _ _ h'

/-- What stands for a phrase, with tokens before it. -/
theorem map {f : α → β} (h : Only R p us a rest)
    (hinv : ∀ ⦃b rest⦄, S ts b rest → ∃ a, R us a rest ∧ b = f a) : Only S p ts (f a) rest := by
  intro hrest b' rest' h' hrest'
  obtain ⟨a', hR, rfl⟩ := hinv h'
  obtain ⟨rfl, rfl⟩ := h hrest hR hrest'
  exact ⟨rfl, rfl⟩

/-- A phrase with a name in front of it, where different names are different tokens. -/
theorem labelled {word : String → τ} (hword : ∀ ⦃v w⦄, word v = word w → v = w) {mark : τ}
    {name : String} (h : Only R p ts a rest) :
    Only (labelled word mark R) p (word name :: mark :: ts) (name, a) rest := by
  refine h.map (f := fun a => (name, a)) ?_
  rintro ⟨name', a'⟩ rest' ⟨us, heq, h'⟩
  obtain ⟨hname, heq⟩ := List.cons.inj heq
  cases hword hname
  cases heq
  exact ⟨a', h', rfl⟩

/-- A phrase in front of a token that does not go on with it. -/
theorem before {t : τ} (h : Only R p ts a (t :: rest)) (ht : p t = false) (q : τ → Bool) :
    Only (fun ts a rest => R ts a (t :: rest)) q ts a rest := by
  intro _ a' rest' h' _
  obtain ⟨rfl, heq⟩ := h ht h' ht
  cases heq
  exact ⟨rfl, rfl⟩

/-- A phrase behind another, perhaps with tokens before them. -/
theorem seq {vs : List τ} {f : α → β → γ} (ha : Only R p ts a us) (hb : Only S q us b rest)
    (hS : S us b rest)
    (hstops : ∀ ⦃us b rest⦄, S us b rest → startsWith q rest = false → startsWith p us = false)
    (hinv : ∀ ⦃c rest⦄, T vs c rest → ∃ a us b, R ts a us ∧ S us b rest ∧ c = f a b) :
    Only T q vs (f a b) rest := by
  intro hrest c' rest' h' hrest'
  obtain ⟨a', us', b', hR, hS', rfl⟩ := hinv h'
  obtain ⟨rfl, rfl⟩ := ha (hstops hS hrest) hR (hstops hS' hrest')
  obtain ⟨rfl, rfl⟩ := hb hrest hS' hrest'
  exact ⟨rfl, rfl⟩

end Only

/-! ## Lists -/

/-- Phrases one after the other, up to where no other starts. -/
structure Many (R : Reader τ α) (S : Reader τ (List α)) (goesOn : τ → Bool) : Prop where
  cases : ∀ ⦃ts as rest⦄, S ts as rest →
    (as = [] ∧ rest = ts) ∨ ∃ a us as', R ts a us ∧ S us as' rest ∧ as = a :: as'
  starts : ∀ ⦃ts a rest⦄, R ts a rest → startsWith goesOn ts = true

namespace Many

variable {R : Reader τ α} {S : Reader τ (List α)} {goesOn p : τ → Bool} {ts us rest : List τ}
  {a : α} {as : List α}

theorem only_nil (h : Many R S goesOn) : Only S goesOn rest [] rest := by
  intro hrest as' rest' h' _
  rcases h.cases h' with ⟨rfl, rfl⟩ | ⟨a, us, as', hR, -, -⟩
  · exact ⟨rfl, rfl⟩
  · exact absurd (h.starts hR) (ne_true_of_eq_false hrest)

theorem only_cons (h : Many R S goesOn) (ha : Only R p ts a us) (has : Only S goesOn us as rest)
    (hR : R ts a us) (hS : S us as rest)
    (hstops : ∀ ⦃us as rest⦄, S us as rest → startsWith goesOn rest = false →
      startsWith p us = false) : Only S goesOn ts (a :: as) rest := by
  intro hrest as' rest' h' hrest'
  rcases h.cases h' with ⟨rfl, rfl⟩ | ⟨a', us', as', hR', hS', rfl⟩
  · exact absurd (h.starts hR) (ne_true_of_eq_false hrest')
  · obtain ⟨rfl, rfl⟩ := ha (hstops hS hrest) hR' (hstops hS' hrest')
    obtain ⟨rfl, rfl⟩ := has hrest hS' hrest'
    exact ⟨rfl, rfl⟩

end Many

/-- Phrases with commas between them, up to what closes their bracket. -/
structure Separated (R : Reader τ α) (S : Reader τ (List α)) (goesOn : τ → Bool)
    (comma closing : τ) : Prop where
  cases : ∀ ⦃ts as rest⦄, S ts as rest →
    (as = [] ∧ ts = closing :: rest) ∨ (∃ a, R ts a (closing :: rest) ∧ as = [a]) ∨
      ∃ a us as', R ts a (comma :: us) ∧ S us as' rest ∧ as = a :: as'
  not_closing : ∀ ⦃ts a rest⦄, ¬ R (closing :: ts) a rest
  apart : comma ≠ closing
  comma_ends : goesOn comma = false
  closing_ends : goesOn closing = false

namespace Separated

variable {R : Reader τ α} {S : Reader τ (List α)} {goesOn : τ → Bool} {comma closing : τ}
  {ts us rest : List τ} {a : α} {as : List α}

theorem only_nil (h : Separated R S goesOn comma closing) :
    Only S never (closing :: rest) [] rest := by
  refine .intro fun as' rest' h' => ?_
  rcases h.cases h' with ⟨rfl, heq⟩ | ⟨a, hR, -⟩ | ⟨a, us, as', hR, -, -⟩
  · cases heq
    exact ⟨rfl, rfl⟩
  · exact (h.not_closing hR).elim
  · exact (h.not_closing hR).elim

theorem only_last (h : Separated R S goesOn comma closing)
    (ha : Only R goesOn ts a (closing :: rest)) (hR : R ts a (closing :: rest)) :
    Only S never ts [a] rest := by
  refine .intro fun as' rest' h' => ?_
  rcases h.cases h' with ⟨rfl, rfl⟩ | ⟨a', hR', rfl⟩ | ⟨a', us, as', hR', -, -⟩
  · exact (h.not_closing hR).elim
  · obtain ⟨rfl, heq⟩ := ha h.closing_ends hR' h.closing_ends
    cases heq
    exact ⟨rfl, rfl⟩
  · obtain ⟨-, heq⟩ := ha h.closing_ends hR' h.comma_ends
    exact absurd (List.head_eq_of_cons_eq heq) h.apart

theorem only_cons (h : Separated R S goesOn comma closing)
    (ha : Only R goesOn ts a (comma :: us)) (has : Only S never us as rest)
    (hR : R ts a (comma :: us)) : Only S never ts (a :: as) rest := by
  refine .intro fun as' rest' h' => ?_
  rcases h.cases h' with ⟨rfl, rfl⟩ | ⟨a', hR', rfl⟩ | ⟨a', us', as', hR', hS', rfl⟩
  · exact (h.not_closing hR).elim
  · obtain ⟨-, heq⟩ := ha h.comma_ends hR' h.closing_ends
    exact absurd (List.head_eq_of_cons_eq heq).symm h.apart
  · obtain ⟨rfl, heq⟩ := ha h.comma_ends hR' h.comma_ends
    cases heq
    obtain ⟨rfl, rfl⟩ := has (startsWith_never _) hS' (startsWith_never _)
    exact ⟨rfl, rfl⟩

end Separated

/-- Phrases with a separator between them, up to where there is no other separator. -/
structure Chained [DecidableEq τ] (R : Reader τ α) (S : Reader τ (List α)) (goesOn : τ → Bool)
    (separator : τ) : Prop where
  cases : ∀ ⦃ts as rest⦄, S ts as rest →
    (∃ a, R ts a rest ∧ as = [a]) ∨
      ∃ a us as', R ts a (separator :: us) ∧ S us as' rest ∧ as = a :: as'
  separator_ends : goesOn separator = false

namespace Chained

variable [DecidableEq τ] {R : Reader τ α} {S : Reader τ (List α)} {goesOn : τ → Bool}
  {separator : τ} {ts us rest : List τ} {a : α} {as : List α}

theorem only_last (h : Chained R S goesOn separator) (ha : Only R goesOn ts a rest) :
    Only S (orToken goesOn separator) ts [a] rest := by
  intro hrest as' rest' h' hrest'
  rcases h.cases h' with ⟨a', hR', rfl⟩ | ⟨a', us, as', hR', -, -⟩
  · obtain ⟨rfl, rfl⟩ := ha (stops_of_orToken hrest).1 hR' (stops_of_orToken hrest').1
    exact ⟨rfl, rfl⟩
  · obtain ⟨-, heq⟩ := ha (stops_of_orToken hrest).1 hR' h.separator_ends
    exact absurd heq.symm ((stops_of_orToken hrest).2 us)

theorem only_cons (h : Chained R S goesOn separator) (ha : Only R goesOn ts a (separator :: us))
    (has : Only S (orToken goesOn separator) us as rest) :
    Only S (orToken goesOn separator) ts (a :: as) rest := by
  intro hrest as' rest' h' hrest'
  rcases h.cases h' with ⟨a', hR', rfl⟩ | ⟨a', us', as', hR', hS', rfl⟩
  · obtain ⟨-, heq⟩ := ha h.separator_ends hR' (stops_of_orToken hrest').1
    exact absurd heq ((stops_of_orToken hrest').2 us)
  · obtain ⟨rfl, heq⟩ := ha h.separator_ends hR' h.separator_ends
    cases heq
    obtain ⟨rfl, rfl⟩ := has hrest hS' hrest'
    exact ⟨rfl, rfl⟩

end Chained

end ElmWire.Readings
