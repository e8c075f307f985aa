import StateSpace.Expr
import StateSpace.Proofs.Views

/-!
# Searches under a key function

A key function stands for configurations without identity in the store and in the forest, and a
search under one never fails to identify what it meets. The successors of an action are another
matter: they are put into a set before they reach the search, and a result in which one of them has
no identity is refused there, whatever the key function makes of it.
-/

namespace StateSpace

namespace Value

theorem eq_null_of_beq {v : Value} (h : (v == .null) = true) : v = .null := by
  have hcanon : v.canon = Value.null.canon := (beq_iff _ _).mp h
  cases v <;> simp_all [canon]

end Value

namespace Action

def effect? (c : Value) : Action → Option (Except Fault Value)
  | .bound _ .null effect => some (effect.run c)
  | .bound _ source effect => if source.equals c then some (effect.run c) else none
  | .call routine => some (routine.run c)
  | .value _ => none

theorem executeBound_eq {source c : Value} {effect : Routine} (h : c = .null → source = .null) :
    executeBound source effect c = effect.run c >>= successorsOf := by
  cases c <;> simp_all [executeBound]

theorem effect?_bound {name : String} {source c : Value} {effect : Routine} (h : source ≠ .null) :
    effect? c (.bound name source effect) =
      if source.equals c then some (effect.run c) else none := by
  rw [effect?]
  exact h

theorem execute_bound {relation name : String} {source c : Value} {effect : Routine}
    (h : source ≠ .null) :
    execute relation (.bound name source effect) c =
      if source.equals c then executeBound source effect c
      else .error (.contractViolation (Action.bound name source effect).text c source) := by
  rw [execute]
  exact h

variable {relation : String} {a : Action} {c : Value}

theorem execute_of_effect {result : Except Fault Value} (h : a.effect? c = some result) :
    a.execute relation c = result >>= successorsOf := by
  cases a with
  | value v => cases h
  | call routine =>
      cases h
      rfl
  | bound name source effect =>
      by_cases hsource : source = .null
      · subst hsource
        cases h
        exact executeBound_eq fun _ => rfl
      · rw [effect?_bound hsource] at h
        by_cases hsame : (source.equals c) = true
        · rw [if_pos hsame] at h
          cases h
          -- a source other than null rules out the configuration that stands for none
          rw [execute_bound hsource, if_pos hsame]
          exact executeBound_eq fun hc => Value.eq_null_of_beq (Value.beq_of_equals (hc ▸ hsame))
        · rw [if_neg hsame] at h
          cases h

theorem execute_of_no_effect (relation : String) (h : a.effect? c = none) :
    (∃ text, a.execute relation c = .error (.cannotRun relation text)) ∨
      ∃ text source, a.execute relation c = .error (.contractViolation text c source) := by
  cases a with
  | value v => exact Or.inl ⟨v.text, rfl⟩
  | call routine => cases h
  | bound name source effect =>
      by_cases hsource : source = .null
      · subst hsource
        cases h
      · rw [effect?_bound hsource] at h
        by_cases hsame : (source.equals c) = true
        · rw [if_pos hsame] at h
          cases h
        · refine Or.inr ⟨(Action.bound name source effect).text, source, ?_⟩
          rw [execute_bound hsource, if_neg hsame]

end Action

theorem Reply.produced_eq_fault {E α γ : Type} {f : α → Except E (List γ)} {fault : Option E}
    {items : List α} {e : E} (h : (produced f fault items).2 = some e) :
    fault = some e ∨ ∃ a ∈ items, f a = .error e := by
  induction items with
  | nil => exact Or.inl h
  | cons a rest ih =>
      cases ha : f a with
      | error e' =>
          rw [produced_cons_error ha] at h
          cases h
          exact Or.inr ⟨a, List.mem_cons_self .., ha⟩
      | ok found =>
          rw [produced_cons_ok ha] at h
          rcases ih h with hfault | ⟨b, hb, he⟩
          · exact Or.inl hfault
          · exact Or.inr ⟨b, List.mem_cons_of_mem _ hb, he⟩

namespace Relation

variable {R : Relation} {call : Action → Value → Option (Except Fault Value)} {a : Action}
  {c : Value}

/-- How a relation calls the effects of its actions: in the usual way, as relations of pieces and of
offers do, or through a function of results. -/
inductive Calls : Relation → (Action → Value → Option (Except Fault Value)) → Prop where
  | usual {R : Relation} (relation : String) (h : R.execute = Action.execute relation) :
      Calls R fun a c => a.effect? c
  | functions (roots : List Value) (enabled : Value → Except Fault Value)
      (result : Action → Value → Except Fault Value) :
      Calls (.ofFunctions roots enabled result) fun a c => some (result a c)

theorem Calls.execute_eq {result : Except Fault Value} (h : R.Calls call)
    (ha : call a c = some result) : R.execute a c = result >>= successorsOf := by
  cases h with
  | usual relation hR =>
      rw [hR]
      exact Action.execute_of_effect ha
  | functions roots enabled f =>
      cases ha
      rfl

def Returns (R : Relation) (call : Action → Value → Option (Except Fault Value)) (c : Value) :
    Prop :=
  ∀ a ∈ (R.enabled c).items, ∀ result, call a c = some result → ∃ v, result = .ok v

/-- In the configuration an action is enabled whose effect gives a successor without identity, the
first part without one being of the given kind. -/
def Leaks (R : Relation) (call : Action → Value → Option (Except Fault Value)) (c : Value)
    (typeName : String) : Prop :=
  ∃ a ∈ (R.enabled c).items, ∃ v, call a c = some (.ok v) ∧
    Value.firstUnhashable? v.candidates = some typeName

/-- Where effects return, the only faults of enabled actions are that they are refused and that a
successor has no identity. -/
theorem Calls.execute_eq_error {e : Fault} (h : R.Calls call) (hreturns : R.Returns call c)
    (ha : a ∈ (R.enabled c).items) (he : R.execute a c = .error e) :
    (∃ typeName, e = .unhashable typeName ∧ R.Leaks call c typeName) ∨
      (∃ relation text, e = .cannotRun relation text) ∨
        ∃ text source, e = .contractViolation text c source := by
  cases hcall : call a c with
  | none =>
      cases h with
      | usual relation hR =>
          rw [hR] at he
          rcases Action.execute_of_no_effect relation hcall with
            ⟨text, hrefused⟩ | ⟨text, source, hrefused⟩
          · cases he.symm.trans hrefused
            exact Or.inr (Or.inl ⟨relation, text, rfl⟩)
          · cases he.symm.trans hrefused
            exact Or.inr (Or.inr ⟨text, source, rfl⟩)
      | functions roots enabled f => cases hcall
  | some result =>
      obtain ⟨v, rfl⟩ := hreturns a ha result hcall
      have hmembers : Value.members v.candidates = .error e := by
        rw [← Value.successorsOf_eq_members, ← he, h.execute_eq hcall]
        rfl
      obtain ⟨typeName, rfl, hfirst⟩ := Value.members_eq_error.mp hmembers
      exact Or.inl ⟨typeName, rfl, a, ha, v, hcall, hfirst⟩

theorem Calls.not_leaks {typeName : String} (h : R.Calls call)
    (hall : ∀ a ∈ (R.enabled c).items, ∃ found, R.execute a c = .ok found) :
    ¬ R.Leaks call c typeName := by
  rintro ⟨a, ha, v, hcall, hfirst⟩
  obtain ⟨found, hfound⟩ := hall a ha
  have hmembers : Value.members v.candidates = .ok found := by
    rw [← Value.successorsOf_eq_members, ← hfound, h.execute_eq hcall]
    rfl
  rw [Value.members_eq_error.mpr ⟨typeName, rfl, hfirst⟩] at hmembers
  cases hmembers

theorem execute_of_edges_fault {e : Fault} (h : (R.edges c).fault = some e)
    (henabled : (R.enabled c).fault = none) :
    ∃ a ∈ (R.enabled c).items, R.execute a c = .error e := by
  rw [(R.edges_eq c).2] at h
  rcases Reply.produced_eq_fault h with hfault | haction
  · rw [henabled] at hfault
    cases hfault
  · exact haction

theorem execute_of_edges (h : (R.edges c).fault = none) :
    ∀ a ∈ (R.enabled c).items, ∃ found, R.execute a c = .ok found := by
  rw [(R.edges_eq c).2] at h
  obtain ⟨hitems, hall⟩ := Reply.produced_of_fault_eq_none h
  intro a ha
  rw [← hitems] at ha
  obtain ⟨p, hp, rfl⟩ := List.mem_map.mp ha
  exact ⟨p.2, hall p hp⟩

end Relation

namespace Search

variable {C K A E : Type} {s : Search C K A E} {r r' : Run C K A E} {e : E}

def Blames (s : Search C K A E) (r : Run C K A E) (e : E) : Prop :=
  (∃ c, s.graph.Reachable c ∧ s.identify c = .error e) ∨ s.graph.roots.fault = some e ∨
    ∃ c ∈ r.store.toList, (s.graph.edges c).fault = some e

variable [DecidableEq K]

theorem Move.blames (hr : s.Sound r) (hm : s.Move r r' (some (.failed (.fault e)))) :
    s.Blames r' e := by
  cases hm with
  | refused hmeets he => exact Or.inl ⟨_, hr.reachable_of_meets hmeets, he⟩
  | overBudget _ _ _ _ hs | overTime _ _ _ hs => exact absurd hs (s.exceed_ne_fault _ _ e)
  | broken hb =>
      have htold := hr.told
      generalize r.phase = phase at hb htold
      cases hb with
      | roots => exact Or.inr (Or.inl htold.2.symm)
      | edges source =>
          refine Or.inr (Or.inr ⟨source.configuration, ?_, htold.2.2.symm⟩)
          exact r.store.mem_toList.mpr ⟨_, htold.1⟩

theorem Leads.blames (hr : s.Sound r) (hl : s.Leads r r' (.failed (.fault e))) : s.Blames r' e := by
  generalize hsignal : Signal.failed (.fault e) = signal at hl
  induction hl with
  | last hm =>
      subst hsignal
      exact hm.blames hr
  | more hm _ ih => exact ih (hr.move hm) hsignal

theorem Session.exhaust_blames {fuel : Nat} (hr : s.Session r)
    (h : s.exhaust fuel r = some (r', some (.fault e))) : s.Blames r' e := by
  obtain ⟨found, r₁, signal, hd, -, hn, hends⟩ := exhaust_eq_some.mp h
  cases hends with
  | failed => exact (leads_of_next hn).blames (hd.session hr).sound

end Search

theorem exists_identify {key : KeyFunction} {c k : Value} (hk : key c = .ok k)
    (hidentity : k.unhashable? = none) : ∃ form, identify (some key) c = .ok form := by
  refine ⟨if k.canon.lasting then some k.canon else none, ?_⟩
  simp [identify, identityKey, hk, hidentity, bind, Except.bind, pure, Except.pure]

section

variable {R : Relation} {key : KeyFunction} {s : ValueSearch} {start : Rat} {fuel : Nat}
  {r : ValueRun}

theorem reachable_of_exhaust {failure : Option ValueFailure} (hgraph : s.graph = R.toGraph)
    (h : s.exhaust fuel (.initial start) = some (r, failure)) :
    ∀ c ∈ r.store.toList, R.toGraph.Reachable c := by
  intro c hc
  obtain ⟨k, hk⟩ := r.store.mem_toList.mp hc
  rw [← hgraph]
  exact ((Search.Session.initial start).exhaust h).sound.history.reachable_of_mem hk

/-- The faults of a search whose keys are all given are those of enabled actions. -/
theorem execute_eq_error_of_exhaust {e : Fault} (hgraph : s.graph = R.toGraph)
    (hkey : s.identify = identify (some key))
    (htotal : ∀ c, R.toGraph.Reachable c → ∃ k, key c = .ok k ∧ k.unhashable? = none)
    (henabled : ∀ c, R.toGraph.Reachable c → (R.enabled c).fault = none)
    (h : s.exhaust fuel (.initial start) = some (r, some (.fault e))) :
    ∃ c ∈ r.store.toList, ∃ a ∈ (R.enabled c).items, R.execute a c = .error e := by
  rcases (Search.Session.initial start).exhaust_blames h with ⟨c, hc, hid⟩ | hroots | ⟨c, hc, hedges⟩
  · obtain ⟨k, hk, hidentity⟩ := htotal c (hgraph ▸ hc)
    obtain ⟨form, hform⟩ := exists_identify hk hidentity
    rw [hkey, hform] at hid
    cases hid
  · -- the roots of a relation are a list, which does not fail
    rw [hgraph] at hroots
    cases hroots
  · rw [hgraph] at hedges
    exact ⟨c, hc, R.execute_of_edges_fault hedges (henabled c (reachable_of_exhaust hgraph h c hc))⟩

/-- A search of a relation under a key function that gives a key with an identity for all that can
be reached. Its faults are those of enabled actions, and it completes only if every enabled action
of what it stored has successors. So long as the effects return, it never fails to identify a
configuration, whatever its kind, and it fails over a value without identity only where an effect
gives one as a successor; it is not complete if there is such an effect. -/
theorem keyed_exhaust_faults (hgraph : s.graph = R.toGraph)
    (hkey : s.identify = identify (some key))
    (htotal : ∀ c, R.toGraph.Reachable c → ∃ k, key c = .ok k ∧ k.unhashable? = none)
    (henabled : ∀ c, R.toGraph.Reachable c → (R.enabled c).fault = none)
    {failure : Option ValueFailure}
    (h : s.exhaust fuel (.initial start) = some (r, failure)) :
    (∀ e, failure = some (.fault e) →
      ∃ c ∈ r.store.toList, ∃ a ∈ (R.enabled c).items, R.execute a c = .error e) ∧
    (r.complete = true →
      ∀ c ∈ r.store.toList, ∀ a ∈ (R.enabled c).items, ∃ found, R.execute a c = .ok found) ∧
    ∀ call, R.Calls call → (∀ c, R.toGraph.Reachable c → R.Returns call c) →
      (∀ c typeName, failure ≠ some (.fault (.unidentified c typeName))) ∧
      (∀ typeName, failure = some (.fault (.unhashable typeName)) →
        ∃ c ∈ r.store.toList, R.Leaks call c typeName) ∧
      (r.complete = true → ∀ c ∈ r.store.toList, ∀ typeName, ¬ R.Leaks call c typeName) := by
  have hreachable := reachable_of_exhaust hgraph h
  have hfaults : ∀ e, failure = some (.fault e) →
      ∃ c ∈ r.store.toList, ∃ a ∈ (R.enabled c).items, R.execute a c = .error e := by
    rintro e rfl
    exact execute_eq_error_of_exhaust hgraph hkey htotal henabled h
  have hcomplete : r.complete = true →
      ∀ c ∈ r.store.toList, ∀ a ∈ (R.enabled c).items, ∃ found, R.execute a c = .ok found := by
    intro hc c hmem
    have hedges := ((Search.Session.initial start).exhaust h).fault_eq_none_of_complete hc c hmem
    rw [hgraph] at hedges
    exact R.execute_of_edges hedges
  refine ⟨hfaults, hcomplete, fun call hcalls hreturns => ⟨?_, ?_, ?_⟩⟩
  · intro d typeName hfailure
    obtain ⟨c, hc, a, ha, he⟩ := hfaults _ hfailure
    rcases hcalls.execute_eq_error (hreturns c (hreachable c hc)) ha he with
      ⟨_, hcause, -⟩ | ⟨_, _, hcause⟩ | ⟨_, _, hcause⟩ <;> cases hcause
  · intro typeName hfailure
    obtain ⟨c, hc, a, ha, he⟩ := hfaults _ hfailure
    rcases hcalls.execute_eq_error (hreturns c (hreachable c hc)) ha he with
      ⟨_, hcause, hleaks⟩ | ⟨_, _, hcause⟩ | ⟨_, _, hcause⟩ <;> cases hcause
    exact ⟨c, hc, hleaks⟩
  · intro hc c hmem typeName
    exact hcalls.not_leaks (hcomplete hc c hmem)

end

def Relation.emptied (successor : Value) : Relation :=
  .ofPieces [.map [(.str "x", .int 0)]]
    [.leaf (.ofRoutine ((Expr.size .configuration).toRoutine "entries")) (some "empty")
      ((Expr.lit successor).toRoutine "successor")]

def Search.emptied (successor : Value) : ValueSearch :=
  { Search.single with
    graph := (Relation.emptied successor).toGraph
    identify := StateSpace.identify (some (Expr.size .configuration).toKey) }

theorem emptied_reachable {c : Value} (h : (Relation.emptied (.tuple [])).toGraph.Reachable c) :
    c = .map [(.str "x", .int 0)] ∨ c = .tuple [] := by
  obtain ⟨steps, htrace⟩ := h
  induction htrace with
  | root hc => exact Or.inl (List.mem_singleton.mp hc)
  | step _ he ih =>
      rcases ih with rfl | rfl
      · exact Or.inr (congrArg Prod.snd (List.mem_singleton.mp he))
      · cases he

/-- A map may be a configuration, under a key function. -/
theorem emptied_keyed_exhaust :
    ∃ r, (Search.emptied (.tuple [])).exhaust 3 (.initial 0) = some (r, none) ∧
      r.store.toList = [.map [(.str "x", .int 0)], .tuple []] ∧ r.complete = true ∧
      ∀ c ∈ r.store.toList, ∀ typeName,
        ¬ (Relation.emptied (.tuple [])).Leaks (fun a c => a.effect? c) c typeName := by
  have hrun : ∃ r, (Search.emptied (.tuple [])).exhaust 3 (.initial 0) = some (r, none) ∧
      r.store.toList = [.map [(.str "x", .int 0)], .tuple []] ∧ r.complete = true :=
    ⟨_, rfl, rfl, rfl⟩
  obtain ⟨r, h, hlist, hcomplete⟩ := hrun
  refine ⟨r, h, hlist, hcomplete, ?_⟩
  refine (keyed_exhaust_faults rfl rfl ?_ ?_ h).2.2 _ (.usual _ rfl) ?_ |>.2.2 hcomplete
  · intro c hc
    rcases emptied_reachable hc with rfl | rfl
    · exact ⟨.int 1, rfl, rfl⟩
    · exact ⟨.int 0, rfl, rfl⟩
  · intro c hc
    rcases emptied_reachable hc with rfl | rfl <;> rfl
  · intro c hc a ha result hresult
    rcases emptied_reachable hc with rfl | rfl
    · cases List.mem_singleton.mp ha
      cases hresult
      exact ⟨_, rfl⟩
    · cases ha

/-- A map may not be a successor, though it has a key: the step to the empty map fails, while all
guards, effects and keys are given for both maps. -/
theorem emptied_unhashable :
    (∀ c ∈ [Value.map [(.str "x", .int 0)], .map []],
      (∃ k, (Expr.size .configuration).toKey c = .ok k ∧ k.unhashable? = none) ∧
      ((Relation.emptied (.map [])).enabled c).fault = none ∧
      (Relation.emptied (.map [])).Returns (fun a c => a.effect? c) c) ∧
    ∃ r, (Search.emptied (.map [])).exhaust 3 (.initial 0) =
      some (r, some (.fault (.unhashable "dict"))) := by
  refine ⟨?_, _, rfl⟩
  intro c hc
  rcases List.mem_pair.mp hc with rfl | rfl
  · refine ⟨⟨.int 1, rfl, rfl⟩, rfl, ?_⟩
    intro a ha result hresult
    cases List.mem_singleton.mp ha
    cases hresult
    exact ⟨_, rfl⟩
  · refine ⟨⟨.int 0, rfl, rfl⟩, rfl, ?_⟩
    intro a ha
    cases ha

end StateSpace
