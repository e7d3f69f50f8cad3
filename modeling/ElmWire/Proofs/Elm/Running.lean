import ElmWire.Proofs.Elm.Evaluation

/-!
# What decoders make of JSON

`Yields decls decoder json outcome` says that running a decoder on JSON comes to an end, and with
which outcome: `some v` if the JSON is accepted as `v`, `none` if it is refused.  There is one lemma
for each way in which decoders are put together, so that the outcome of a decoder is found by going
through it once, and nothing else has to be known about running.
-/

set_option autoImplicit false
namespace ElmWire.Elm

variable {decls : List Decl}

/-- Running the decoder on the JSON comes to an end with the outcome. -/
def Yields (decls : List Decl) (decoder : Val) (json : Json) (outcome : Option Val) : Prop :=
  ∃ result, run decls decoder json = some result ∧ result.toOption = outcome

/-! ## Decoders without parts -/

theorem yields_succeed (v : Val) (json : Json) :
    Yields decls (.decoder (.succeed v)) json (some v) := ⟨.ok v, by rw [run], rfl⟩

theorem yields_fail (message : String) (json : Json) :
    Yields decls (.decoder (.fail message)) json none :=
  ⟨.error (.failure message), by rw [run], rfl⟩

theorem yields_bool (json : Json) : Yields decls (.decoder .bool) json
    (match json with
      | .bool b => some (.bool b)
      | _ => none) := by
  cases json <;> exact ⟨_, by rw [Val.run.eq_def], rfl⟩

theorem yields_float (json : Json) : Yields decls (.decoder .float) json
    (match json with
      | .number n => some (.float n.toFloat)
      | _ => none) := by
  cases json <;> exact ⟨_, by rw [Val.run.eq_def], rfl⟩

theorem yields_string (json : Json) : Yields decls (.decoder .string) json
    (match json with
      | .string s => some (.string s)
      | _ => none) := by
  cases json <;> exact ⟨_, by rw [Val.run.eq_def], rfl⟩

theorem toOption_intOf (n : Json.Number) :
    (intOf n).toOption = n.toInt?.bind fun i => if isElmInt i then some (.int i) else none := by
  rw [intOf]
  cases n.toInt? with
  | none => rfl
  | some i => by_cases hrange : isElmInt i <;> simp [hrange, Except.toOption]

theorem yields_int (json : Json) : Yields decls (.decoder .int) json
    (match json with
      | .number n => n.toInt?.bind fun i => if isElmInt i then some (.int i) else none
      | _ => none) := by
  cases json with
  | number n => exact ⟨intOf n, by rw [Val.run.eq_def], toOption_intOf n⟩
  | _ => exact ⟨_, by rw [Val.run.eq_def], rfl⟩

/-! ## Decoders of parts -/

/-- Running decoders one after the other. -/
theorem exists_results {α : Type} {f : α → Option (Except Problem Val)} {outcome : α → Option Val}
    {as : List α} (h : ∀ a ∈ as, ∃ result, f a = some result ∧ result.toOption = outcome a) :
    ∃ results, as.mapM f = some results ∧ (results.mapM id).toOption = as.mapM outcome := by
  induction as with
  | nil => exact ⟨[], rfl, rfl⟩
  | cons a as ih =>
    rw [List.forall_mem_cons] at h
    obtain ⟨result, hresult, houtcome⟩ := h.1
    obtain ⟨results, hresults, houtcomes⟩ := ih h.2
    refine ⟨result :: results, ?_, ?_⟩
    · rw [List.mapM_cons, hresult, Option.bind_eq_bind, Option.bind_some, hresults]
      rfl
    · rw [List.mapM_cons, List.mapM_cons, toOption_bind, ← houtcome]
      simp only [toOption_bind, houtcomes]
      rfl

theorem yields_list {item : Val} {items : List Json} {outcome : Json → Option Val}
    (h : ∀ json ∈ items, Yields decls item json (outcome json)) :
    Yields decls (.decoder (.list item)) (.array items) ((items.mapM outcome).map .list) := by
  obtain ⟨results, hresults, houtcomes⟩ := exists_results h
  refine ⟨(results.mapM id).map .list, ?_, ?_⟩
  · rw [run, hresults]
    rfl
  · rw [toOption_map, houtcomes]

theorem yields_list_of_ne {item : Val} {json : Json} (h : ∀ items, json ≠ .array items) :
    Yields decls (.decoder (.list item)) json none := by
  cases json with
  | array items => exact absurd rfl (h items)
  | _ => exact ⟨_, by rw [Val.run.eq_def], rfl⟩

theorem yields_field {name : String} {decoder : Val} {members : List (String × Json)} {json : Json}
    {outcome : Option Val} (hfound : members.lookup name = some json)
    (h : Yields decls decoder json outcome) :
    Yields decls (.decoder (.field name decoder)) (.object members) outcome := by
  obtain ⟨result, hresult, houtcome⟩ := h
  refine ⟨result, ?_, houtcome⟩
  rw [Val.run.eq_def]
  simp only [hfound, hresult]

theorem yields_field_of_none {name : String} {decoder : Val} {members : List (String × Json)}
    (hfound : members.lookup name = none) :
    Yields decls (.decoder (.field name decoder)) (.object members) none := by
  refine ⟨.error (.expecting ("an OBJECT with a field named `" ++ name ++ "`")), ?_, rfl⟩
  rw [Val.run.eq_def]
  simp only [hfound]

theorem yields_field_of_ne {name : String} {decoder : Val} {json : Json}
    (h : ∀ members, json ≠ .object members) :
    Yields decls (.decoder (.field name decoder)) json none := by
  cases json with
  | object members => exact absurd rfl (h members)
  | _ => exact ⟨_, by rw [Val.run.eq_def], rfl⟩

theorem yields_index {i : Nat} {decoder : Val} {items : List Json} {json : Json}
    {outcome : Option Val} (hfound : items[i]? = some json)
    (h : Yields decls decoder json outcome) :
    Yields decls (.decoder (.index i decoder)) (.array items) outcome := by
  obtain ⟨result, hresult, houtcome⟩ := h
  refine ⟨result, ?_, houtcome⟩
  rw [Val.run.eq_def]
  simp only [hfound, hresult]

theorem yields_index_of_none {i : Nat} {decoder : Val} {items : List Json}
    (hfound : items[i]? = none) :
    Yields decls (.decoder (.index i decoder)) (.array items) none := by
  refine ⟨.error (.expecting "a longer array"), ?_, rfl⟩
  rw [Val.run.eq_def]
  simp only [hfound]

theorem yields_index_of_ne {i : Nat} {decoder : Val} {json : Json}
    (h : ∀ items, json ≠ .array items) :
    Yields decls (.decoder (.index i decoder)) json none := by
  cases json with
  | array items => exact absurd rfl (h items)
  | _ => exact ⟨_, by rw [Val.run.eq_def], rfl⟩

/-! ## Decoders that go on with what others accept -/

theorem yields_map {γ : Type} {function : Val} {json : Json} {slots : List γ} {decoder : γ → Val}
    {outcome : γ → Option Val} (h : ∀ slot ∈ slots, Yields decls (decoder slot) json (outcome slot))
    (happly : ∀ vs, slots.mapM outcome = some vs →
      ∃ v, vs.foldlM (apply decls) function = some v) :
    Yields decls (.decoder (.map function (slots.map decoder))) json
      ((slots.mapM outcome).bind fun vs => vs.foldlM (apply decls) function) := by
  obtain ⟨results, hresults, houtcomes⟩ := exists_results h
  rw [← houtcomes] at happly ⊢
  rw [Yields, run, List.mapM_map]
  show ∃ result, (slots.mapM fun slot => run decls (decoder slot) json).bind _ = some result ∧ _
  rw [hresults, Option.bind_some]
  cases hall : results.mapM id with
  | error problem => exact ⟨.error problem, rfl, rfl⟩
  | ok vs =>
    obtain ⟨v, hv⟩ := happly vs (by rw [hall]; rfl)
    refine ⟨.ok v, ?_, hv.symm⟩
    show (vs.foldlM (apply decls) function).bind _ = _
    rw [hv]
    rfl

theorem yields_andThen {function decoder next : Val} {json : Json} {v : Val} {outcome : Option Val}
    (h : Yields decls decoder json (some v)) (happly : apply decls function v = some next)
    (hnext : Yields decls next json outcome) :
    Yields decls (.decoder (.andThen function decoder)) json outcome := by
  obtain ⟨result, hresult, houtcome⟩ := h
  obtain ⟨result', hresult', houtcome'⟩ := hnext
  refine ⟨result', ?_, houtcome'⟩
  cases toOption_eq_some_iff.1 houtcome
  rw [run, hresult]
  show (apply decls function v).bind _ = _
  rw [happly]
  exact hresult'

theorem yields_andThen_of_none {function decoder : Val} {json : Json}
    (h : Yields decls decoder json none) :
    Yields decls (.decoder (.andThen function decoder)) json none := by
  obtain ⟨result, hresult, houtcome⟩ := h
  cases result with
  | ok v => cases houtcome
  | error problem =>
    refine ⟨.error problem, ?_, rfl⟩
    rw [run, hresult]
    rfl

theorem yields_lazy_iff {thunk decoder : Val} {json : Json} {outcome : Option Val}
    (happly : apply decls thunk .unit = some decoder) :
    Yields decls (.decoder (.lazy thunk)) json outcome ↔ Yields decls decoder json outcome := by
  have hrun : run decls (.decoder (.lazy thunk)) json = run decls decoder json := by
    rw [run, happly]
    rfl
  rw [Yields, Yields, hrun]

/-! ## Pipelines

A decoder of a function is sent through decoders of its arguments, each of which hands what it
accepts to the function. -/

/-- A decoder of a function with decoders of its arguments. -/
def pipeline (function : Val) (decoders : List Val) : Val :=
  decoders.foldl (fun function decoder =>
    .decoder (.map (.builtin .forward []) [decoder, function])) function

theorem foldlM_apply_forward (v f : Val) :
    [v, f].foldlM (apply decls) (.builtin .forward []) = apply decls f v := by
  rw [foldlM_apply_builtin rfl, call]

theorem yields_forward {function decoder : Val} {json : Json} {f v : Option Val}
    (hfunction : Yields decls function json f) (hdecoder : Yields decls decoder json v)
    (happly : ∀ f', f = some f' → ∀ v', ∃ w, apply decls f' v' = some w) :
    Yields decls (.decoder (.map (.builtin .forward []) [decoder, function])) json
      (f.bind fun f' => v.bind fun v' => apply decls f' v') := by
  have hslots : ∀ slot ∈ [(decoder, v), (function, f)], Yields decls slot.1 json slot.2 := by
    simp [hdecoder, hfunction]
  have hall : ∀ vs, [(decoder, v), (function, f)].mapM Prod.snd = some vs →
      ∃ w, vs.foldlM (apply decls) (.builtin .forward []) = some w := by
    intro vs hvs
    cases v with
    | none => cases hvs
    | some v' =>
      cases f with
      | none => cases hvs
      | some f' =>
        cases hvs
        show ∃ w, [v', f'].foldlM (apply decls) (.builtin .forward []) = some w
        rw [foldlM_apply_forward]
        exact happly f' rfl v'
  have hmap := yields_map hslots hall
  cases v with
  | none => cases f <;> exact hmap
  | some v' =>
    cases f with
    | none => exact hmap
    | some f' =>
      have happly : ([(decoder, some v'), (function, some f')].mapM Prod.snd).bind
          (fun vs => vs.foldlM (apply decls) (.builtin .forward [])) = apply decls f' v' :=
        foldlM_apply_forward v' f'
      rwa [happly] at hmap

/-- **A pipeline applies the function to everything that is accepted**, and refuses if anything is
refused.  The function has to take that many arguments. -/
theorem yields_pipeline {γ : Type} {json : Json} {slots : List γ} {decoder : γ → Val}
    {outcome : γ → Option Val} (h : ∀ slot ∈ slots, Yields decls (decoder slot) json (outcome slot))
    {function : Val} {f : Option Val} (hfunction : Yields decls function json f)
    (happly : ∀ f', f = some f' → ∀ vs : List Val, vs.length ≤ slots.length →
      ∃ v, vs.foldlM (apply decls) f' = some v) :
    Yields decls (pipeline function (slots.map decoder)) json
      (f.bind fun f' => (slots.mapM outcome).bind fun vs => vs.foldlM (apply decls) f') := by
  induction slots generalizing function f with
  | nil =>
    cases f <;> exact hfunction
  | cons slot rest ih =>
    rw [List.forall_mem_cons] at h
    have hone : ∀ f', f = some f' → ∀ v', ∃ w, apply decls f' v' = some w := by
      intro f' hf v'
      simpa using happly f' hf [v'] (by simp)
    have hrest : ∀ g, (f.bind fun f' => (outcome slot).bind fun v' => apply decls f' v') = some g →
        ∀ vs : List Val, vs.length ≤ rest.length → ∃ v, vs.foldlM (apply decls) g = some v := by
      intro g hg vs hlength
      obtain ⟨f', hf', hg⟩ := Option.bind_eq_some_iff.1 hg
      obtain ⟨v', -, hg⟩ := Option.bind_eq_some_iff.1 hg
      obtain ⟨v, hv⟩ := happly f' hf' (v' :: vs) (by simpa using hlength)
      rw [List.foldlM_cons, hg] at hv
      exact ⟨v, hv⟩
    have hnext := ih h.2 (yields_forward hfunction h.1 hone) hrest
    have houtcome : ((f.bind fun f' => (outcome slot).bind fun v' => apply decls f' v').bind
        fun f' => (rest.mapM outcome).bind fun vs => vs.foldlM (apply decls) f') =
        f.bind fun f' => ((slot :: rest).mapM outcome).bind fun vs =>
          vs.foldlM (apply decls) f' := by
      rw [List.mapM_cons]
      cases f with
      | none => rfl
      | some f' =>
        cases outcome slot with
        | none => rfl
        | some v' =>
          cases rest.mapM outcome with
          | none =>
            show (apply decls f' v').bind (fun _ => none) = none
            cases apply decls f' v' <;> rfl
          | some vs =>
            show _ = (v' :: vs).foldlM (apply decls) f'
            rw [List.foldlM_cons]
            rfl
    rw [houtcome] at hnext
    exact hnext

/-! ## Custom types -/

theorem pickVariant_of_find? {variants : List (String × Val)} {tag : String} {entry : String × Val}
    (h : variants.find? (fun variant => variant.1 = tag) = some entry) :
    pickVariant variants tag = entry.2 := by
  rw [← List.head?_filter] at h
  obtain ⟨rest, hfilter⟩ := List.head?_eq_some_iff.1 h
  rw [pickVariant, hfilter]

theorem pickVariant_of_find?_none {variants : List (String × Val)} {tag : String}
    (h : variants.find? (fun variant => variant.1 = tag) = none) :
    ∃ message, pickVariant variants tag = .decoder (.fail message) := by
  rw [← List.head?_filter, List.head?_eq_none_iff] at h
  rw [pickVariant, h]
  exact ⟨_, rfl⟩

theorem apply_pickVariant (variants : List (String × Val)) (tag : String) :
    apply decls (.builtin .pickVariant
        [.list (variants.map fun variant => decodeVariant variant.1 variant.2)]) (.string tag) =
      some (pickVariant variants tag) := by
  have hvariants : (variants.map fun variant => decodeVariant variant.1 variant.2).mapM
      Val.variant? = some (variants.map id) := mapM_map_eq_some fun _ _ => rfl
  rw [apply_builtin_last _ rfl, call_eq_build rfl]
  show ((variants.map fun variant =>
    decodeVariant variant.1 variant.2).mapM Val.variant?).bind _ = _
  rw [hvariants, List.map_id]
  rfl

/-- The tag chooses the decoder. -/
theorem yields_decodeCustomType {variants : List (String × Val)} {members : List (String × Json)}
    {tag : String} {outcome : Option Val}
    (htag : members.lookup Wire.variantTag = some (.string tag))
    (h : Yields decls (pickVariant variants tag) (.object members) outcome) :
    Yields decls (decodeCustomType (variants.map fun variant => decodeVariant variant.1 variant.2))
      (.object members) outcome :=
  yields_andThen (yields_field htag (yields_string (.string tag)))
    (apply_pickVariant variants tag) h

/-- Without a tag there is no decoder. -/
theorem yields_decodeCustomType_of_none {variants : List Val} {json : Json}
    (h : Yields decls (.decoder (.field Wire.variantTag (.decoder .string))) json none) :
    Yields decls (decodeCustomType variants) json none := yields_andThen_of_none h

end ElmWire.Elm
