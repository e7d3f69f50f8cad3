import ElmWire.Proofs.Wire.Reachability

/-!
# How deep the codec goes

`encode` and `decode` report an alias that leads back to itself.  Followed without that check, such
an alias would be followed for ever.  This file looks at the codec without the check, and bounds how
deep it may go instead: `Codec.within` spends one level on every alias that it follows and on every
part that it goes into, and comes back empty-handed where its levels do not suffice.

* `within_below` — whatever it comes back with is what the codec gives.
* `within_eq_outcome` — **levels for every part and every definition are enough**: with
  `size * (definitions + 1)` of them it comes back with what the codec gives, unless that is the
  report of a circular alias.
* `Codec.Computes.circular_reaches` — such a report is only made where a stuck name is reached.

Both together are the termination of the codec: where no stuck name is reached it ends within the
bound, and at a stuck name no number of levels is enough.
-/

set_option autoImplicit false
namespace ElmWire.Wire

/-! ## Bounded computations -/

/-- What comes of a computation that may only go so deep, if anything does. -/
abbrev Bounded (α : Type) := ExceptT Error Option α

section

variable {α β : Type}

/-- The computation would have to go deeper. -/
def tooDeep : Bounded α := ExceptT.mk none

/-- The computation ends. -/
def finished (x : Except Error α) : Bounded α := ExceptT.mk (some x)

/-- What comes of a computation that follows circular aliases for ever, where `x` reports them. -/
def outcome : Except Error α → Bounded α
  | .error (.circularAlias _) => tooDeep
  | x => finished x

theorem outcome_of_blamesMessage {x : Except Error α} (h : BlamesMessage x) :
    outcome x = finished x := by
  fun_cases outcome x with
  | case1 name => simpa [Error.ofSchema] using h _ rfl
  | case2 => rfl

theorem outcome_eq_finished {x : Except Error α} (h : ∀ name, x ≠ .error (.circularAlias name)) :
    outcome x = finished x := by
  fun_cases outcome x with
  | case1 name => exact absurd rfl (h name)
  | case2 => rfl

theorem outcome_bind (x : Except Error α) (f : α → Except Error β) :
    outcome (x >>= f) = outcome x >>= fun a => outcome (f a) := by
  cases x with
  | error e => cases e <;> rfl
  | ok a => rfl

theorem outcome_map (f : α → β) (x : Except Error α) : outcome (f <$> x) = f <$> outcome x := by
  cases x with
  | error e => cases e <;> rfl
  | ok a => rfl

theorem outcome_mapM (f : α → Except Error β) (as : List α) :
    outcome (as.mapM f) = as.mapM fun a => outcome (f a) := by
  induction as with
  | nil => rfl
  | cons a as ih =>
    rw [List.mapM_cons, List.mapM_cons, outcome_bind]
    refine congrArg _ (funext fun b => ?_)
    rw [outcome_bind, ih]
    rfl

/-- The first computation comes to the same as the second, if it does not go too deep. -/
def Below (x y : Bounded α) : Prop := x = tooDeep ∨ x = y

theorem Below.refl (x : Bounded α) : Below x x := .inr rfl

theorem Below.antisymm {x y : Bounded α} (h : Below x y) (h' : Below y x) : x = y := by
  rcases h with rfl | rfl
  · rcases h' with rfl | rfl <;> rfl
  · rfl

theorem Below.bind {x y : Bounded α} {f g : α → Bounded β} (h : Below x y)
    (hf : ∀ a, Below (f a) (g a)) : Below (x >>= f) (y >>= g) := by
  rcases h with rfl | rfl
  · exact .inl rfl
  · cases x with
    | none => exact .inl rfl
    | some x =>
      cases x with
      | error e => exact .inr rfl
      | ok a => exact hf a

theorem Below.mapM {f g : α → Bounded β} {as : List α} (h : ∀ a ∈ as, Below (f a) (g a)) :
    Below (as.mapM f) (as.mapM g) := by
  induction as with
  | nil => exact .refl _
  | cons a as ih =>
    rw [List.mapM_cons, List.mapM_cons]
    obtain ⟨hfirst, hrest⟩ := List.forall_mem_cons.1 h
    exact hfirst.bind fun _ => (ih hrest).bind fun _ => .refl _

end

/-! ## Codecs of bounded depth -/

namespace Codec

variable {σ τ : Type} {c : Codec σ τ} {schema : Schema}

/-- Does what the codec plans at a shape, with `visit` for the parts. -/
def walk (c : Codec σ τ) (visit : Ty → σ → Bounded τ) (shape : Shape) (s : σ) : Bounded τ := do
  let plan ← finished (c.plan shape s)
  plan.follow fun slot => do
    let place ← finished slot
    visit place.1 place.2

/-- One level of the codec, with `visit` for the next. -/
def level (c : Codec σ τ) (schema : Schema) (visit : Ty → σ → Bounded τ) (type : Ty) (s : σ) :
    Bounded τ :=
  match type.view with
  | .shape shape => c.walk visit shape s
  | .name name =>
    match schema.get? name with
    | none => finished (.error (.undefinedType name))
    | some (.custom _ ctors) => c.walk visit (.tagged name ctors) s
    | some (.alias _ definition) => visit definition s

/-- The codec with so many levels to spend, following aliases wherever they lead. -/
def within (c : Codec σ τ) (schema : Schema) : Nat → Ty → σ → Bounded τ
  | 0, _, _ => tooDeep
  | depth + 1, type, s => c.level schema (c.within schema depth) type s

/-! ## What one level needs of the next -/

theorem walk_below {visit visit' : Ty → σ → Bounded τ} {s : σ}
    (h : ∀ part ∈ c.parts s, ∀ type, Below (visit type part) (visit' type part)) (shape : Shape) :
    Below (c.walk visit shape s) (c.walk visit' shape s) := by
  cases hplan : c.plan shape s with
  | error e =>
    rw [walk, walk, hplan]
    exact .refl _
  | ok plan =>
    have hslots := (c.plan_in shape s).slots plan hplan
    have hfollow : Below (plan.slots.mapM fun slot => finished slot >>= fun place =>
        visit place.1 place.2) (plan.slots.mapM fun slot => finished slot >>= fun place =>
        visit' place.1 place.2) := by
      refine .mapM fun slot hmem => ?_
      cases hslot : slot with
      | error e => exact .refl _
      | ok place => exact h _ ((hslots slot hmem).part_mem place hslot) _
    rw [walk, walk, hplan]
    rcases hfollow with htooDeep | heq
    · exact .inl (congrArg (plan.assemble <$> ·) htooDeep)
    · exact .inr (congrArg (plan.assemble <$> ·) heq)

/-- A level looks at the next one only at the parts, and at the definition of an alias. -/
theorem level_below {visit visit' : Ty → σ → Bounded τ} {type : Ty} {s : σ}
    (hparts : ∀ part ∈ c.parts s, ∀ t, Below (visit t part) (visit' t part))
    (halias : ∀ {name d definition}, type = .named name →
      schema.get? name = some (.alias d definition) →
      Below (visit definition s) (visit' definition s)) :
    Below (c.level schema visit type s) (c.level schema visit' type s) := by
  rw [level, level]
  cases hview : type.view with
  | shape shape => exact walk_below hparts shape
  | name name =>
    simp only
    cases hget : schema.get? name with
    | none => exact .refl _
    | some d =>
      cases d with
      | custom d ctors => exact walk_below hparts _
      | «alias» d definition => exact halias (Ty.eq_named_of_view hview) hget

section

variable {run : Ty → σ → Except Error τ}

theorem walk_outcome (shape : Shape) (s : σ) :
    c.walk (fun t part => outcome (run t part)) shape s =
      outcome (c.plan shape s >>= fun plan => plan.follow (atPlace run)) := by
  cases hplan : c.plan shape s with
  | error e =>
    rw [walk, hplan]
    refine (outcome_of_blamesMessage ?_).symm
    exact .error ((c.plan_in shape s).blames e hplan)
  | ok plan =>
    have hslots := (c.plan_in shape s).slots plan hplan
    rw [walk, hplan]
    show plan.assemble <$> _ = outcome (plan.assemble <$> _)
    rw [outcome_map, outcome_mapM]
    refine congrArg _ (Below.antisymm ?_ ?_)
    all_goals
      refine .mapM fun slot hmem => .inr ?_
      rw [atPlace, outcome_bind, outcome_of_blamesMessage (hslots slot hmem).blames]

/-- What the codec gives is what one level gives if it is what the next level gives. -/
theorem Computes.level_outcome (hc : c.Computes schema run) (type : Ty) (s : σ) :
    c.level schema (fun t part => outcome (run t part)) type s = outcome (run type s) := by
  have hshape : ∀ shape, schema.shape type = .ok shape →
      c.walk (fun t part => outcome (run t part)) shape s = outcome (run type s) := by
    intro shape h
    rw [walk_outcome, hc type s, h]
    rfl
  rw [level]
  cases hview : type.view with
  | shape shape => exact hshape shape (Schema.shape_of_view hview)
  | name name =>
    cases Ty.eq_named_of_view hview
    simp only
    cases hget : schema.get? name with
    | none =>
      rw [hc, Schema.shape_of_undefined hget]
      rfl
    | some d =>
      cases d with
      | custom d ctors => exact hshape _ (Schema.shape_of_custom hget)
      | «alias» d definition =>
        show outcome (run definition s) = outcome (run (.named name) s)
        by_cases hstuck : schema.Stuck name
        · obtain ⟨next, ⟨d', hnext⟩, hstuck'⟩ := hstuck.step
          cases hget.symm.trans hnext
          rw [hc, hc, Schema.shape_of_stuck hstuck, Schema.shape_of_stuck hstuck']
          rfl
        · rw [hc, hc, Schema.shape_alias hget hstuck]

/-! ## What bounded codecs come to -/

/-- **What the bounded codec comes back with is what the codec gives.** -/
theorem Computes.within_below (hc : c.Computes schema run) (depth : Nat) (type : Ty) (s : σ) :
    Below (c.within schema depth type s) (outcome (run type s)) := by
  induction depth generalizing type s with
  | zero => exact .inl rfl
  | succ depth ih =>
    rw [within, ← hc.level_outcome]
    exact level_below (fun part _ t => ih t part) fun _ _ => ih _ s

/-- A level comes to what the codec gives if the next one does where it is looked at. -/
theorem Computes.within_succ (hc : c.Computes schema run) {depth : Nat} {type : Ty} {s : σ}
    (hparts : ∀ part ∈ c.parts s, ∀ t, c.within schema depth t part = outcome (run t part))
    (halias : ∀ {name d definition}, type = .named name →
      schema.get? name = some (.alias d definition) →
      c.within schema depth definition s = outcome (run definition s)) :
    c.within schema (depth + 1) type s = outcome (run type s) := by
  rw [within, ← hc.level_outcome]
  refine Below.antisymm ?_ ?_
  · exact level_below (fun part hpart t => .inr (hparts part hpart t))
      fun htype hget => .inr (halias htype hget)
  · exact level_below (fun part hpart t => .inr (hparts part hpart t).symm)
      fun htype hget => .inr (halias htype hget).symm

/-- With enough levels for the parts, one more and one for each alias on the way are enough. -/
theorem Computes.within_of_shapeWithin (hc : c.Computes schema run) {s : σ} {enough : Nat}
    (hparts : ∀ part ∈ c.parts s, ∀ depth ≥ enough, ∀ t,
      c.within schema depth t part = outcome (run t part))
    {hops : Nat} {type : Ty}
    (hshape : ∀ last, schema.shapeWithin hops type ≠ .error (.circularAlias last)) :
    ∀ depth ≥ enough + hops, c.within schema (depth + 1) type s = outcome (run type s) := by
  induction hops generalizing type with
  | zero =>
    intro depth hdepth
    refine hc.within_succ (fun part hpart => hparts part hpart depth (by omega)) ?_
    rintro name d definition rfl hget
    refine absurd ?_ (hshape name)
    rw [Schema.shapeWithin.eq_def]
    simp only [Ty.view, hget]
  | succ hops ih =>
    intro depth hdepth
    refine hc.within_succ (fun part hpart => hparts part hpart depth (by omega)) ?_
    rintro name d definition rfl hget
    rw [Schema.shapeWithin.eq_def] at hshape
    simp only [Ty.view, hget] at hshape
    obtain ⟨depth, rfl⟩ : ∃ k, depth = k + 1 := ⟨depth - 1, by omega⟩
    exact ih hshape depth (by omega)

/-- **Levels for every part and every definition are enough.** -/
theorem Computes.within_eq_outcome (hc : c.Computes schema run) (s : σ) :
    ∀ (type : Ty), ∀ depth ≥ c.size s * (schema.defs.length + 1),
      c.within schema depth type s = outcome (run type s) := by
  induction s using c.induction_parts with
  | h s ih =>
    intro type depth hdepth
    obtain ⟨name, _, _, _, hcircular⟩ | ⟨hcircular, -⟩ := schema.shape_cases type
    · -- The codec reports a circular alias at once, and no depth is enough.
      have houtcome : outcome (run type s) = tooDeep := by
        rw [hc, hcircular]
        rfl
      rcases hc.within_below depth type s with h | h
      · rw [h, houtcome]
      · exact h
    · have hparts : ∀ part ∈ c.parts s,
          ∀ depth ≥ ((c.parts s).map c.size).sum * (schema.defs.length + 1), ∀ t,
            c.within schema depth t part = outcome (run t part) := by
        intro part hpart depth hdepth t
        refine ih part hpart t depth (le_trans (Nat.mul_le_mul_right _ ?_) hdepth)
        exact List.le_sum_of_mem (List.mem_map_of_mem hpart)
      rw [c.size_eq s, Nat.add_mul, Nat.one_mul] at hdepth
      obtain ⟨depth, rfl⟩ : ∃ k, depth = k + 1 := ⟨depth - 1, by omega⟩
      exact hc.within_of_shapeWithin hparts hcircular depth (by omega)

/-- A circular alias is reported only where a stuck name is reached. -/
theorem Computes.ne_circularAlias (hc : c.Computes schema run) {type : Ty}
    (hfree : ∀ name, schema.Reaches type name → ¬ schema.Stuck name) (s : σ) (last : String) :
    run type s ≠ .error (.circularAlias last) := by
  intro h
  obtain ⟨other, hshape, hreaches⟩ := hc.exists_shape_error rfl s h
  obtain ⟨name, rfl, hstuck⟩ := Schema.stuck_of_circular hshape
  exact hfree name (hreaches name (Schema.reaches_named name)) hstuck

/-- Where no stuck name is reached, the codec ends within the bound. -/
theorem Computes.within_eq_finished (hc : c.Computes schema run) {type : Ty}
    (hfree : ∀ name, schema.Reaches type name → ¬ schema.Stuck name) (s : σ) :
    ∀ depth ≥ c.size s * (schema.defs.length + 1),
      c.within schema depth type s = finished (run type s) := by
  intro depth hdepth
  rw [hc.within_eq_outcome s type depth hdepth]
  exact outcome_eq_finished (hc.ne_circularAlias hfree s)

/-- At a stuck name the codec reports a circular alias, and no number of levels is enough. -/
theorem Computes.of_stuck (hc : c.Computes schema run) {name : String} (h : schema.Stuck name)
    (s : σ) : (∃ last, run (.named name) s = .error (.circularAlias last)) ∧
      ∀ depth, c.within schema depth (.named name) s = tooDeep := by
  have hrun : run (.named name) s = .error (.circularAlias name) := by
    rw [hc, Schema.shape_of_stuck h]
    rfl
  refine ⟨⟨name, hrun⟩, fun depth => ?_⟩
  have hbelow := hc.within_below depth (.named name) s
  rw [hrun] at hbelow
  rcases hbelow with h | h
  · exact h
  · exact h

end

end Codec

/-! ## The two codecs -/

/-- The encoder with so many levels to spend. -/
def encodeWithin (schema : Schema) (depth : Nat) (type : Ty) (value : Value) : Bounded Json :=
  encoding.within schema depth type value

/-- The decoder with so many levels to spend. -/
def decodeWithin (schema : Schema) (depth : Nat) (type : Ty) (json : Json) : Bounded Value :=
  decoding.within schema depth type json

/-- **The codec ends where aliases do, and only there.**  Where a type reaches no stuck name, as
many levels as there are parts in the message, times one more than there are definitions, are enough
for encoding and decoding, and they come to what `encode` and `decode` give.  At a stuck name no
number of levels is enough, whatever the message, and that is what `encodeNamed` and `decodeNamed`
report.
-/
theorem codec_terminates_where_aliases_end (schema : Schema) :
    (∀ type, (∀ name, schema.Reaches type name → ¬ schema.Stuck name) →
      (∀ value, ∀ depth ≥ value.size * (schema.defs.length + 1),
        encodeWithin schema depth type value = finished (encode schema type value)) ∧
      ∀ json, ∀ depth ≥ json.size * (schema.defs.length + 1),
        decodeWithin schema depth type json = finished (decode schema type json)) ∧
    ∀ name, schema.Stuck name →
      (∀ value, (∃ last, encodeNamed schema name value = .error (.circularAlias last)) ∧
        ∀ depth, encodeWithin schema depth (.named name) value = tooDeep) ∧
      ∀ json, (∃ last, decodeNamed schema name json = .error (.circularAlias last)) ∧
        ∀ depth, decodeWithin schema depth (.named name) json = tooDeep := by
  have hencoding := encoding_computes schema
  have hdecoding := decoding_computes schema
  refine ⟨fun type hfree => ⟨?_, ?_⟩, fun name hstuck => ⟨?_, ?_⟩⟩
  · exact hencoding.within_eq_finished hfree
  · exact hdecoding.within_eq_finished hfree
  · exact hencoding.of_stuck hstuck
  · exact hdecoding.of_stuck hstuck

/-- A chain in which every link but the last holds the next, and two names for each other. -/
def chainSchema : Schema :=
  ⟨[.custom "Chain" [⟨"End", []⟩, ⟨"Link", [.maybe (.named "Chain")]⟩],
    .alias "Ping" (.named "Pong"), .alias "Pong" (.named "Ping")]⟩

/-- A link inside a link is encoded within sixteen levels; for a message between two names for each
other there is no bound. -/
theorem codec_terminates_where_aliases_end_chain :
    (∀ name, chainSchema.Reaches (.named "Chain") name → ¬ chainSchema.Stuck name) ∧
      encodeWithin chainSchema 16 (.named "Chain")
          (.variant "Link" [.variant "Just" [.variant "Link" [.variant "Nothing" []]]]) =
        finished (.ok
          (envelope "Link" [envelope "Just" [envelope "Link" [envelope "Nothing" []]]])) ∧
      chainSchema.Stuck "Ping" ∧
      ∀ depth json, decodeWithin chainSchema depth (.named "Ping") json = tooDeep := by
  have hchain : ∀ name, chainSchema.Reaches (.named "Chain") name → name = "Chain" := by
    intro name h
    induction h with
    | refers hmem => exact List.mem_singleton.1 hmem
    | through _ hget hmem ih =>
      subst ih
      cases hget
      exact List.mem_singleton.1 hmem
  have hfree : ∀ name, chainSchema.Reaches (.named "Chain") name → ¬ chainSchema.Stuck name := by
    intro name h hstuck
    cases hchain name h
    obtain ⟨next, ⟨d, hget⟩, -⟩ := hstuck.step
    cases hget
  have hstuck : chainSchema.Stuck "Ping" :=
    ⟨"Ping", .refl, .tail (.single ⟨"Ping", rfl⟩) ⟨"Pong", rfl⟩⟩
  obtain ⟨hends, hloops⟩ := codec_terminates_where_aliases_end chainSchema
  refine ⟨hfree, ?_, hstuck, fun depth json => ((hloops "Ping" hstuck).2 json).2 depth⟩
  exact (hends (.named "Chain") hfree).1 _ 16 (by decide)

end ElmWire.Wire
