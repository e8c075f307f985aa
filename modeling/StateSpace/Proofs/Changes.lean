import StateSpace.Proofs.Assignments

/-!
# Changes of states

A change gives new values to some names of a state. It is refused if one of the names is not
declared, then if one of the new values has no identity; what comes out otherwise has the names of
the state in their order. The laws of changes follow from those of overriding a mapping by a partial
function.
-/

namespace StateSpace

namespace Mapping

def override (d : Mapping) (f : String → Option Value) : Mapping where
  entries := d.entries.map fun e => (e.1, (f e.1).getD e.2)
  distinct := by simpa [Function.comp_def] using d.distinct

section Override

variable {d : Mapping} {f g : String → Option Value} {name : String} {v : Value}

theorem names_override : (d.override f).names = d.names := by
  simp [names, override, Function.comp_def]

theorem mem_override :
    (name, v) ∈ (d.override f).entries ↔ ∃ w, (name, w) ∈ d.entries ∧ v = (f name).getD w := by
  simp only [override, List.mem_map, Prod.exists, Prod.mk.injEq]
  constructor
  · rintro ⟨_, w, hw, rfl, rfl⟩
    exact ⟨w, hw, rfl⟩
  · rintro ⟨w, hw, rfl⟩
    exact ⟨name, w, hw, rfl, rfl⟩

theorem override_self (h : ∀ name v, (name, v) ∈ d.entries → (f name).getD v = v) :
    d.override f = d := by
  apply Mapping.ext
  apply (List.map_congr_left _).trans (List.map_id _)
  intro e he
  rw [h e.1 e.2 he]
  rfl

theorem override_override :
    (d.override f).override g = d.override fun name => (g name).or (f name) := by
  apply Mapping.ext
  simp [override, Function.comp_def]

end Override

section Putting

variable {d ch : Mapping}

theorem put_named {entries : List (String × Value)} {name : String} (v : Value)
    (hdistinct : (entries.map (·.1)).Nodup) (h : name ∈ entries.map (·.1)) :
    Value.put (entries.map fun e => (.str e.1, e.2)) (.str name) v =
      entries.map fun e => (.str e.1, if e.1 = name then v else e.2) := by
  induction entries with
  | nil => exact absurd h List.not_mem_nil
  | cons e rest ih =>
      rw [List.map_cons, List.nodup_cons] at hdistinct
      rw [List.map_cons, List.map_cons, Value.put]
      by_cases he : e.1 = name
      · -- The rest of the names are others.
        rw [if_pos (str_beq_str_iff.mpr he), if_pos he]
        congr 1
        apply List.map_congr_left
        intro f hf
        have hne : f.1 ≠ name := by
          rintro rfl
          exact hdistinct.1 (he ▸ List.mem_map_of_mem hf)
        rw [if_neg hne]
      · have hrest : name ∈ rest.map (·.1) := by
          rcases List.mem_cons.mp h with heq | hrest
          · exact absurd heq.symm he
          · exact hrest
        rw [if_neg (mt str_beq_str_iff.mp he), if_neg he, ih hdistinct.2 hrest]

theorem put_vars {name : String} (v : Value) (h : name ∈ d.names) :
    Value.put d.vars (.str name) v =
      (d.override fun other => if other = name then some v else none).vars := by
  rw [vars, put_named v d.distinct h, vars, override, List.map_map]
  apply List.map_congr_left
  intro e _
  by_cases he : e.1 = name <;> simp [he]

theorem value?_mk_cons {e : String × Value} {rest : List (String × Value)}
    (h : ((e :: rest).map (·.1)).Nodup) (name : String) :
    (Mapping.mk (e :: rest) h).value? name =
      ((Mapping.mk rest (List.nodup_cons.mp h).2).value? name).or
        (if name = e.1 then some e.2 else none) := by
  by_cases hname : name = e.1
  · subst hname
    have hnone : (Mapping.mk rest (List.nodup_cons.mp h).2).value? e.1 = none :=
      value?_eq_none_iff.mpr (List.nodup_cons.mp h).1
    rw [hnone, if_pos rfl, Option.none_or]
    exact value?_eq_some_iff.mpr List.mem_cons_self
  · rw [if_neg hname, Option.or_none]
    apply Option.ext
    intro v
    rw [value?_eq_some_iff, value?_eq_some_iff]
    refine ⟨fun hv => (List.mem_cons.mp hv).resolve_left ?_, List.mem_cons_of_mem _⟩
    rintro rfl
    exact hname rfl

/-- Values put under names of the mapping one after the other override it. -/
theorem putAll_vars (h : ∀ name ∈ ch.names, name ∈ d.names) :
    Value.putAll d.vars ch.vars = (d.override ch.value?).vars := by
  obtain ⟨changes, hdistinct⟩ := ch
  induction changes generalizing d with
  | nil =>
      rw [override_self fun _ _ _ => rfl]
      rfl
  | cons e rest ih =>
      have hrest := (List.nodup_cons.mp hdistinct).2
      change Value.putAll (Value.put d.vars (.str e.1) e.2) (Mapping.mk rest hrest).vars = _
      rw [put_vars e.2 (h e.1 List.mem_cons_self), ih hrest, override_override]
      · rw [funext (value?_mk_cons hdistinct)]
      · intro name hname
        rw [names_override]
        exact h name (List.mem_cons_of_mem _ hname)

end Putting

def merge (d₁ d₂ : Mapping) : Mapping where
  entries := (d₁.override d₂.value?).entries ++ d₂.entries.filter fun e => (d₁.value? e.1).isNone
  distinct := by
    rw [List.map_append, List.nodup_append]
    refine ⟨(d₁.override d₂.value?).distinct, ?_, ?_⟩
    · exact d₂.distinct.sublist (List.filter_sublist.map _)
    · intro name hname other hother heq
      subst heq
      obtain ⟨e, he, rfl⟩ := List.mem_map.mp hother
      have hnone := Option.isNone_iff_eq_none.mp (List.mem_filter.mp he).2
      have hnames : e.1 ∈ (d₁.override d₂.value?).names := hname
      rw [names_override] at hnames
      exact value?_eq_none_iff.mp hnone hnames

theorem value?_merge (d₁ d₂ : Mapping) (name : String) :
    (d₁.merge d₂).value? name = (d₂.value? name).or (d₁.value? name) := by
  apply Option.ext
  intro v
  rw [value?_eq_some_iff, Option.or_eq_some_iff, value?_eq_some_iff, value?_eq_some_iff, merge,
    List.mem_append, mem_override, List.mem_filter, Option.isNone_iff_eq_none]
  constructor
  · rintro (⟨w, hw, rfl⟩ | ⟨hv, -⟩)
    · cases hd : d₂.value? name with
      | none => exact Or.inr ⟨rfl, hw⟩
      | some v => exact Or.inl (value?_eq_some_iff.mp hd)
    · exact Or.inl hv
  · rintro (hv | ⟨hnone, hv⟩)
    · cases hd : d₁.value? name with
      | none => exact Or.inr ⟨hv, rfl⟩
      | some w =>
          refine Or.inl ⟨w, value?_eq_some_iff.mp hd, ?_⟩
          rw [value?_eq_some_iff.mpr hv, Option.getD_some]
    · exact Or.inl ⟨v, hv, by rw [hnone, Option.getD_none]⟩

variable {d d₁ d₂ ch ch₁ ch₂ : Mapping}

theorem make_of_not_hashable (h : ¬ d.Hashable) :
    ∃ typeName, State.make d.vars = .error (.unidentified (.map d.vars) typeName) := by
  rw [← unhashable?_key_eq_none] at h
  obtain ⟨typeName, htype⟩ := Option.ne_none_iff_exists'.mp h
  exact ⟨typeName, by rw [make_eq, htype]⟩

def undeclared (d ch : Mapping) : List (String × Value) :=
  ch.entries.filter fun e => (d.value? e.1).isNone

theorem undeclared_eq_nil : d.undeclared ch = [] ↔ ∀ name ∈ ch.names, name ∈ d.names := by
  rw [undeclared, List.filter_eq_nil_iff, names, List.forall_mem_map]
  simp [value?_eq_none_iff]

theorem undeclared_override {f : String → Option Value} :
    (d.override f).undeclared ch = d.undeclared ch := by
  apply List.filter_congr
  intro e _
  rw [Bool.eq_iff_iff, Option.isNone_iff_eq_none, Option.isNone_iff_eq_none, value?_eq_none_iff,
    value?_eq_none_iff, names_override]

/-- If the names of the first changes are declared, then only the second ones can be refused. -/
theorem undeclared_merge (h : ∀ name ∈ ch₁.names, name ∈ d.names) :
    d.undeclared (ch₁.merge ch₂) = d.undeclared ch₂ := by
  have hfirst : d.undeclared (ch₁.override ch₂.value?) = [] := by
    rw [undeclared_eq_nil, names_override]
    exact h
  unfold undeclared at hfirst ⊢
  rw [merge, List.filter_append, hfirst, List.nil_append, List.filter_filter]
  apply List.filter_congr
  intro e _
  rw [Bool.and_eq_left_iff_imp, Option.isNone_iff_eq_none, Option.isNone_iff_eq_none,
    value?_eq_none_iff, value?_eq_none_iff]
  exact mt (h e.1)

theorem change_eq (hself : "self" ∉ ch.names) : State.change d.vars ch.entries =
    if d.undeclared ch = [] then State.make (d.override ch.value?).vars
    else .error (.unknownVariables
      ((Value.canonical ((d.undeclared ch).map fun e => .str e.1)).map (·.shown))) := by
  have hno : (ch.entries.any fun e => e.1 == "self") = false := by
    rw [List.any_eq_false]
    intro e he heq
    exact hself (beq_iff_eq.mp heq ▸ List.mem_map_of_mem he)
  rw [State.change, hno]
  by_cases h : d.undeclared ch = []
  · rw [if_pos h, ← putAll_vars (undeclared_eq_nil.mp h)]
    have hempty : (d.undeclared ch).isEmpty = true := List.isEmpty_iff.mpr h
    exact if_pos hempty
  · rw [if_neg h]
    have hempty : ¬ (d.undeclared ch).isEmpty = true := mt List.isEmpty_iff.mp h
    exact if_neg hempty

theorem hashable_override (hd : d.Hashable) (h : ∀ name ∈ ch.names, name ∈ d.names) :
    (d.override ch.value?).Hashable ↔ ch.Hashable := by
  constructor
  · rintro hnew ⟨name, v⟩ hv
    obtain ⟨w, hw⟩ := exists_of_names ch d (h name) hv
    refine hnew (name, v) (mem_override.mpr ⟨w, hw, ?_⟩)
    rw [value?_eq_some_iff.mpr hv, Option.getD_some]
  · rintro hch ⟨name, v⟩ hv
    obtain ⟨w, hw, rfl⟩ := mem_override.mp hv
    cases hvalue : ch.value? name with
    | none => exact hd _ hw
    | some v => exact hch _ (value?_eq_some_iff.mp hvalue)

theorem change_of_undeclared (hself : "self" ∉ ch.names)
    (h : ¬ ∀ name ∈ ch.names, name ∈ d.names) :
    State.change d.vars ch.entries = .error (.unknownVariables
      ((Value.canonical ((d.undeclared ch).map fun e => .str e.1)).map (·.shown))) := by
  rw [change_eq hself, if_neg (mt undeclared_eq_nil.mp h)]

theorem change_of_declared (hself : "self" ∉ ch.names) (h : ∀ name ∈ ch.names, name ∈ d.names) :
    State.change d.vars ch.entries = State.make (d.override ch.value?).vars := by
  rw [change_eq hself, if_pos (undeclared_eq_nil.mpr h)]

/-- A change comes out if and only if its names are declared and its values have an identity. -/
theorem change_eq_ok (hd : d.Hashable) (hself : "self" ∉ ch.names) {t : Value} :
    State.change d.vars ch.entries = .ok t ↔
      (∀ name ∈ ch.names, name ∈ d.names) ∧ ch.Hashable ∧
        t = .state .written (d.override ch.value?).vars := by
  by_cases hknown : ∀ name ∈ ch.names, name ∈ d.names
  · rw [change_of_declared hself hknown, ← hashable_override hd hknown]
    by_cases hnew : (d.override ch.value?).Hashable
    · rw [make_of_hashable _ hnew, Except.ok.injEq, eq_comm]
      exact ⟨fun ht => ⟨hknown, hnew, ht⟩, fun h => h.2.2⟩
    · obtain ⟨typeName, hmake⟩ := make_of_not_hashable hnew
      simp [hmake, hnew]
  · simp [change_of_undeclared hself hknown, hknown]

theorem item_vars {name : String} {v : Value} (h : (name, v) ∈ d.entries) :
    Value.item d.vars (.str name) = .ok v := by
  rw [Value.item_of_hashable rfl, d.lookup_eq_some_iff.mpr ⟨name, rfl, h⟩]
  rfl

theorem mem_names_merge {name : String} :
    name ∈ (ch₁.merge ch₂).names ↔ name ∈ ch₁.names ∨ name ∈ ch₂.names := by
  rw [← not_iff_not, ← value?_eq_none_iff, value?_merge, Option.or_eq_none_iff, value?_eq_none_iff,
    value?_eq_none_iff, not_or, and_comm]

end Mapping

open Mapping

def update (s : Value) (ch : Mapping) : Except Fault Value := do
  State.change (← State.vars s) ch.entries

section Laws

variable {d d₁ d₂ ch ch₁ ch₂ : Mapping} {m n : Mark}

theorem update_eq_ok (hd : d.Hashable) (hself : "self" ∉ ch.names) {t : Value} :
    update (.state m d.vars) ch = .ok t ↔
      (∀ name ∈ ch.names, name ∈ d.names) ∧ ch.Hashable ∧
        t = .state .written (d.override ch.value?).vars :=
  change_eq_ok hd hself

theorem update_key_fault (hself : "self" ∉ ch.names) :
    (∃ e, update (.state m d.vars) ch = .error e ∧ e.kind = .key) ↔
      ∃ name ∈ ch.names, name ∉ d.names := by
  constructor
  · rintro ⟨e, he, hkind⟩
    by_contra hnot
    push Not at hnot
    have hmake : State.make (d.override ch.value?).vars = .error e :=
      (change_of_declared hself hnot).symm.trans he
    by_cases hnew : (d.override ch.value?).Hashable
    · cases (make_of_hashable _ hnew).symm.trans hmake
    · obtain ⟨typeName, hfault⟩ := make_of_not_hashable hnew
      cases hfault.symm.trans hmake
      cases hkind
  · rintro ⟨name, hname, hnot⟩
    exact ⟨_, change_of_undeclared hself fun h => hnot (h name hname), rfl⟩

theorem update_configuration_fault (hd : d.Hashable) (hself : "self" ∉ ch.names)
    (h : ∀ name ∈ ch.names, name ∈ d.names) :
    (∃ e, update (.state m d.vars) ch = .error e ∧ e.kind = .configuration) ↔ ¬ ch.Hashable := by
  rw [← hashable_override hd h]
  constructor
  · rintro ⟨e, he, -⟩ hnew
    cases ((change_of_declared hself h).trans (make_of_hashable _ hnew)).symm.trans he
  · intro hnew
    obtain ⟨typeName, hfault⟩ := make_of_not_hashable hnew
    exact ⟨_, (change_of_declared hself h).trans hfault, rfl⟩

/-- New values under the changed names, and the same values as before under the others. -/
theorem item_override (h : ∀ name ∈ ch.names, name ∈ d.names) :
    (∀ name v, (name, v) ∈ ch.entries →
      Value.item (d.override ch.value?).vars (.str name) = .ok v) ∧
    ∀ name v, (name, v) ∈ d.entries → name ∉ ch.names →
      Value.item (d.override ch.value?).vars (.str name) = .ok v := by
  constructor
  · intro name v hv
    obtain ⟨w, hw⟩ := exists_of_names ch d (h name) hv
    refine item_vars (mem_override.mpr ⟨w, hw, ?_⟩)
    rw [value?_eq_some_iff.mpr hv, Option.getD_some]
  · intro name v hv hname
    refine item_vars (mem_override.mpr ⟨v, hv, ?_⟩)
    rw [value?_eq_none_iff.mpr hname, Option.getD_none]

/-- A change to equal values gives an equal state. -/
theorem override_agrees (h : ∀ name v w, (name, v) ∈ ch.entries → (name, w) ∈ d.entries →
    (v == w) = true) : (d.override ch.value?).Agrees d := by
  refine ⟨fun name => by rw [names_override], ?_⟩
  intro name v w hv hw
  obtain ⟨u, hu, rfl⟩ := mem_override.mp hv
  obtain rfl := d.eq_of_mem hu hw
  cases hvalue : ch.value? name with
  | none => exact (Value.beq_iff _ _).mpr rfl
  | some v => exact h name v u (value?_eq_some_iff.mp hvalue) hw

theorem update_update (hd : d.Hashable) (h₁ : "self" ∉ ch₁.names) (h₂ : "self" ∉ ch₂.names)
    {t : Value} (h : update (.state m d.vars) ch₁ = .ok t) :
    update t ch₂ = update (.state m d.vars) (ch₁.merge ch₂) := by
  obtain ⟨hknown, -, rfl⟩ := (update_eq_ok hd h₁).mp h
  have hself : "self" ∉ (ch₁.merge ch₂).names := by
    rw [mem_names_merge, not_or]
    exact ⟨h₁, h₂⟩
  have hvalues : (d.override ch₁.value?).override ch₂.value? =
      d.override (ch₁.merge ch₂).value? := by
    rw [override_override, funext (value?_merge ch₁ ch₂)]
  -- Both ways find the same names undeclared, those of the second change, and put the same values.
  have hthen := change_eq (d := d.override ch₁.value?) h₂
  rw [undeclared_override, hvalues, ← undeclared_merge hknown] at hthen
  exact hthen.trans (change_eq hself).symm

theorem update_then_eq_ok (hd : d.Hashable) (h₁ : "self" ∉ ch₁.names) (h₂ : "self" ∉ ch₂.names)
    {t : Value} : (do update (← update (.state m d.vars) ch₁) ch₂) = .ok t ↔
      ((∀ name ∈ ch₁.names, name ∈ d.names) ∧ ch₁.Hashable) ∧
      ((∀ name ∈ ch₂.names, name ∈ d.names) ∧ ch₂.Hashable) ∧
      t = .state .written (d.override fun name => (ch₂.value? name).or (ch₁.value? name)).vars := by
  rw [bind_eq_ok]
  constructor
  · rintro ⟨u, hu, ht⟩
    obtain ⟨hknown₁, hhash₁, rfl⟩ := (update_eq_ok hd h₁).mp hu
    obtain ⟨hknown₂, hhash₂, rfl⟩ :=
      (update_eq_ok ((hashable_override hd hknown₁).mpr hhash₁) h₂).mp ht
    rw [names_override] at hknown₂
    exact ⟨⟨hknown₁, hhash₁⟩, ⟨hknown₂, hhash₂⟩, by rw [override_override]⟩
  · rintro ⟨⟨hknown₁, hhash₁⟩, ⟨hknown₂, hhash₂⟩, rfl⟩
    refine ⟨_, (update_eq_ok hd h₁).mpr ⟨hknown₁, hhash₁, rfl⟩, ?_⟩
    refine (update_eq_ok ((hashable_override hd hknown₁).mpr hhash₁) h₂).mpr ⟨?_, hhash₂, ?_⟩
    · rw [names_override]
      exact hknown₂
    · rw [override_override]

theorem update_comm (hd : d.Hashable) (h₁ : "self" ∉ ch₁.names) (h₂ : "self" ∉ ch₂.names)
    (hdisjoint : ∀ name ∈ ch₁.names, name ∉ ch₂.names) (t : Value) :
    (do update (← update (.state m d.vars) ch₁) ch₂) = .ok t ↔
      (do update (← update (.state m d.vars) ch₂) ch₁) = .ok t := by
  have hvalues : (fun name => (ch₂.value? name).or (ch₁.value? name)) =
      fun name => (ch₁.value? name).or (ch₂.value? name) := by
    funext name
    by_cases hname : name ∈ ch₁.names
    · rw [value?_eq_none_iff.mpr (hdisjoint name hname), Option.none_or, Option.or_none]
    · rw [value?_eq_none_iff.mpr hname, Option.none_or, Option.or_none]
  rw [update_then_eq_ok hd h₁ h₂, update_then_eq_ok hd h₂ h₁, hvalues]
  exact and_left_comm

theorem Mapping.Agrees.override (h : d₁.Agrees d₂) (f : String → Option Value) :
    (d₁.override f).Agrees (d₂.override f) := by
  refine ⟨fun name => by rw [names_override, names_override, h.1 name], ?_⟩
  intro name v w hv hw
  obtain ⟨v, hv', rfl⟩ := mem_override.mp hv
  obtain ⟨w, hw', rfl⟩ := mem_override.mp hw
  cases f name with
  | none => exact h.2 name v w hv' hw'
  | some u => exact (Value.beq_iff u u).mpr rfl

/-- Equal states change alike. -/
theorem update_congr (hd₁ : d₁.Hashable) (hd₂ : d₂.Hashable) (hself : "self" ∉ ch.names)
    (h : d₁.Agrees d₂) :
    (∃ t₁ t₂, update (.state m d₁.vars) ch = .ok t₁ ∧ update (.state n d₂.vars) ch = .ok t₂ ∧
      (t₁ == t₂) = true) ∨
    ∃ e₁ e₂, update (.state m d₁.vars) ch = .error e₁ ∧ update (.state n d₂.vars) ch = .error e₂ ∧
      e₁.kind = e₂.kind := by
  by_cases hunknown : ∃ name ∈ ch.names, name ∉ d₁.names
  · have hunknown₂ : ∃ name ∈ ch.names, name ∉ d₂.names := by
      simpa only [h.1] using hunknown
    obtain ⟨e₁, he₁, hkind₁⟩ := (update_key_fault hself).mpr hunknown
    obtain ⟨e₂, he₂, hkind₂⟩ := (update_key_fault hself).mpr hunknown₂
    exact Or.inr ⟨e₁, e₂, he₁, he₂, hkind₁.trans hkind₂.symm⟩
  · push Not at hunknown
    have hknown₂ : ∀ name ∈ ch.names, name ∈ d₂.names := by
      simpa only [h.1] using hunknown
    by_cases hhash : ch.Hashable
    · refine Or.inl ⟨_, _, (update_eq_ok hd₁ hself).mpr ⟨hunknown, hhash, rfl⟩,
        (update_eq_ok hd₂ hself).mpr ⟨hknown₂, hhash, rfl⟩, ?_⟩
      exact (state_beq_iff _ _ _ _).mpr (h.override ch.value?)
    · obtain ⟨e₁, he₁, hkind₁⟩ := (update_configuration_fault hd₁ hself hunknown).mpr hhash
      obtain ⟨e₂, he₂, hkind₂⟩ := (update_configuration_fault hd₂ hself hknown₂).mpr hhash
      exact Or.inr ⟨e₁, e₂, he₁, he₂, hkind₁.trans hkind₂.symm⟩

end Laws

/-- Changes are lawful updates of states. -/
theorem change_is_lawful_update (d : Mapping) (m : Mark) (hd : d.Hashable) :
    (∀ ch : Mapping, "self" ∉ ch.names →
      ((∃ e, update (.state m d.vars) ch = .error e ∧ e.kind = .key) ↔
        ∃ name ∈ ch.names, name ∉ d.names) ∧
      ((∀ name ∈ ch.names, name ∈ d.names) →
        ((∃ e, update (.state m d.vars) ch = .error e ∧ e.kind = .configuration) ↔
          ∃ e ∈ ch.entries, e.2.unhashable? ≠ none) ∧
        (ch.Hashable → ∃ t : Mapping, update (.state m d.vars) ch = .ok (.state .written t.vars) ∧
          t.names = d.names ∧
          (∀ name v, (name, v) ∈ ch.entries →
            Expr.itemOf (.state .written t.vars) (.str name) = .ok v) ∧
          (∀ name v, (name, v) ∈ d.entries → name ∉ ch.names →
            Expr.itemOf (.state .written t.vars) (.str name) = .ok v)))) ∧
    (∀ ch : Mapping, "self" ∉ ch.names →
      (∀ name v, (name, v) ∈ ch.entries → (name, v) ∈ d.entries ∨
        v.unhashable? = none ∧ ∃ w, (name, w) ∈ d.entries ∧ (v == w) = true) →
      ∃ t, update (.state m d.vars) ch = .ok t ∧ (t == .state m d.vars) = true) ∧
    (∀ (ch₁ ch₂ : Mapping) (t : Value), "self" ∉ ch₁.names → "self" ∉ ch₂.names →
      update (.state m d.vars) ch₁ = .ok t →
      update t ch₂ = update (.state m d.vars) (ch₁.merge ch₂)) ∧
    (∀ (ch₁ ch₂ : Mapping) (t : Value), "self" ∉ ch₁.names → "self" ∉ ch₂.names →
      (∀ name ∈ ch₁.names, name ∉ ch₂.names) →
      ((do update (← update (.state m d.vars) ch₁) ch₂) = .ok t ↔
        (do update (← update (.state m d.vars) ch₂) ch₁) = .ok t)) ∧
    (∀ (d' : Mapping) (n : Mark) (ch : Mapping), d'.Hashable → "self" ∉ ch.names →
      (Value.state m d.vars == .state n d'.vars) = true →
      (∃ t t', update (.state m d.vars) ch = .ok t ∧ update (.state n d'.vars) ch = .ok t' ∧
        (t == t') = true) ∨
      ∃ e e', update (.state m d.vars) ch = .error e ∧ update (.state n d'.vars) ch = .error e' ∧
        e.kind = e'.kind) := by
  refine ⟨?_, ?_, ?_, ?_, ?_⟩
  · intro ch hself
    refine ⟨update_key_fault hself, fun hknown => ⟨?_, fun hhash => ?_⟩⟩
    · rw [update_configuration_fault hd hself hknown, Mapping.Hashable]
      push Not
      rfl
    · exact ⟨_, (update_eq_ok hd hself).mpr ⟨hknown, hhash, rfl⟩, names_override,
        item_override hknown⟩
  · intro ch hself hsame
    have hequal : ∀ name v, (name, v) ∈ ch.entries →
        v.unhashable? = none ∧ ∃ w, (name, w) ∈ d.entries ∧ (v == w) = true := by
      intro name v hv
      rcases hsame name v hv with hpresent | hequal
      · exact ⟨hd _ hpresent, v, hpresent, (Value.beq_iff v v).mpr rfl⟩
      · exact hequal
    refine ⟨_, (update_eq_ok hd hself).mpr ⟨?_, fun e he => (hequal e.1 e.2 he).1, rfl⟩, ?_⟩
    · intro name hname
      obtain ⟨v, hv⟩ := ch.mem_names.mp hname
      obtain ⟨-, w, hw, -⟩ := hequal name v hv
      exact d.mem_names.mpr ⟨w, hw⟩
    · refine (state_beq_iff _ _ _ _).mpr (override_agrees ?_)
      intro name v w hv hw
      obtain ⟨-, u, hu, heq⟩ := hequal name v hv
      exact d.eq_of_mem hu hw ▸ heq
  · intro ch₁ ch₂ t h₁ h₂
    exact update_update hd h₁ h₂
  · intro ch₁ ch₂ t h₁ h₂ hdisjoint
    exact update_comm hd h₁ h₂ hdisjoint t
  · intro d' n ch hd' hself heq
    exact update_congr hd hd' hself ((state_beq_iff _ _ _ _).mp heq)

/-- Changes of a state with a number and a text. -/
theorem change_is_lawful_update_pair :
    let d : Mapping := ⟨[("a", .int 0), ("b", .str "x")], by decide⟩
    let swapped : Mapping := ⟨[("b", .str "x"), ("a", .bool false)], by decide⟩
    let unknown : Mapping := ⟨[("c", .int 1)], by decide⟩
    let bad : Mapping := ⟨[("a", .list [])], by decide⟩
    let first : Mapping := ⟨[("a", .int 1)], by decide⟩
    let second : Mapping := ⟨[("b", .null)], by decide⟩
    let s := Value.state .written d.vars
    (∃ e, update s unknown = .error e ∧ e.kind = .key) ∧
    (∃ e, update s bad = .error e ∧ e.kind = .configuration) ∧
    (∃ t, update s ⟨[("a", .bool false)], by decide⟩ = .ok t ∧ (t == s) = true) ∧
    (∃ t, update s first = .ok t ∧ update t second = update s (first.merge second)) ∧
    (∃ t, (do update (← update s first) second) = .ok t ∧
      (do update (← update s second) first) = .ok t) ∧
    ∃ t t', update s first = .ok t ∧ update (.state .written swapped.vars) first = .ok t' ∧
      (t == t') = true := by
  intro d swapped unknown bad first second s
  obtain ⟨houtcome, hsame, hmerge, hcomm, hcongr⟩ :=
    change_is_lawful_update d .written (by decide)
  obtain ⟨t, ht, -⟩ := ((houtcome first (by decide)).2 (by decide)).2
    (by decide)
  refine ⟨?_, ?_, ?_, ?_, ?_, ?_⟩
  · exact (houtcome unknown (by decide)).1.mpr (by decide)
  · exact ((houtcome bad (by decide)).2 (by decide)).1.mpr (by decide)
  · refine hsame _ (by decide) ?_
    intro name v hv
    obtain ⟨rfl, rfl⟩ := Prod.mk.inj (List.mem_singleton.mp hv)
    exact Or.inr ⟨rfl, .int 0, List.mem_cons_self, by decide⟩
  · exact ⟨_, ht, hmerge first second _ (by decide) (by decide) ht⟩
  · exact ⟨_, rfl, (hcomm first second _ (by decide) (by decide) (by decide)).mp rfl⟩
  · rcases hcongr swapped .written first (by decide) (by decide)
      (by decide) with hequal | ⟨e, e', he, -⟩
    · exact hequal
    · cases ht.symm.trans he

end StateSpace
