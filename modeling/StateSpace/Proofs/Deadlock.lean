import StateSpace.Proofs.Expansion
import StateSpace.Proofs.Verdicts

/-!
# Deadlocks are found, and nothing else is taken for one

The search for a deadlock scans what an exploration has stored, oldest first, for a configuration in
which no action is enabled. It asks the relation once more, also about configurations that were
never expanded. After a complete exploration no such question can fail, since the edges of every
stored configuration have been told to their end.
-/

namespace StateSpace

namespace Reply

variable {C E α β : Type}

theorem nonempty_eq_true {r : Reply C E α} : r.nonempty = .ok true ↔ ∃ a, a ∈ r.items := by
  unfold nonempty
  cases hi : r.items with
  | nil => cases hf : r.fault <;> simp
  | cons a rest => simp

theorem nonempty_eq_false {r : Reply C E α} :
    r.nonempty = .ok false ↔ r.items = [] ∧ r.fault = none := by
  unfold nonempty
  cases hi : r.items with
  | nil => cases hf : r.fault <;> simp
  | cons a rest => simp

theorem fault_eq_none_of_expand {f : α → Except E (List β)} {fault : Option E} {items : List α}
    (h : (expand f fault items).2 = none) : fault = none := by
  induction items with
  | nil => exact h
  | cons a rest ih =>
      unfold expand at h
      cases ha : f a with
      | error e => simp [ha] at h
      | ok bs =>
          rw [ha] at h
          exact ih h

end Reply

namespace Relation

def HasAction (R : Relation) (c : Value) : Prop := ∃ a, a ∈ (R.enabled c).items

/-- The relation tells that no action is enabled in the configuration. -/
def Stuck (R : Relation) (c : Value) : Prop :=
  (R.enabled c).items = [] ∧ (R.enabled c).fault = none

theorem not_hasAction_of_stuck {R : Relation} {c : Value} (h : R.Stuck c) : ¬ R.HasAction c := by
  rintro ⟨a, ha⟩
  rw [h.1] at ha
  cases ha

theorem stuck_of_not_hasAction {R : Relation} {c : Value} (h : ¬ R.HasAction c)
    (hfault : (R.edges c).fault = none) : R.Stuck c := by
  have hitems : (R.enabled c).items = [] := by
    apply List.eq_nil_iff_forall_not_mem.mpr
    intro a ha
    exact h ⟨a, ha⟩
  exact ⟨hitems, Reply.fault_eq_none_of_expand hfault⟩

end Relation

namespace Search

variable {C K A E : Type} {s : Search C K A E} {r r' : Run C K A E}
  {enabled : C → Reply C E A} {configurations : List C}

theorem findDeadlock_budgetReason (s : Search C K A E) (enabled : C → Reply C E A)
    (r : Run C K A E) (configurations : List C) :
    (s.findDeadlock enabled r configurations).1.budgetReason = r.budgetReason := by
  induction configurations generalizing r with
  | nil => rfl
  | cons d rest ih =>
      have hheard : (s.hear r (enabled d)).budgetReason = r.budgetReason := rfl
      cases hn : (enabled d).nonempty with
      | error e => simp [findDeadlock, hn, hheard]
      | ok b =>
          cases b with
          | true => simpa [findDeadlock, hn, hheard] using ih (s.hear r (enabled d))
          | false => simp [findDeadlock, hn, hheard]

theorem findDeadlock_of_all (hall : ∀ c ∈ configurations, (enabled c).nonempty = .ok true)
    (r : Run C K A E) : (s.findDeadlock enabled r configurations).2 = .ok none := by
  induction configurations generalizing r with
  | nil => rfl
  | cons d rest ih =>
      have hd := hall d (List.mem_cons_self ..)
      have hrest := ih (fun c hc => hall c (List.mem_cons_of_mem _ hc)) (s.hear r (enabled d))
      simpa [findDeadlock, hd] using hrest

theorem findDeadlock_of_first {before after : List C} {c : C}
    (hbefore : ∀ d ∈ before, (enabled d).nonempty = .ok true)
    (hc : (enabled c).nonempty = .ok false) (r : Run C K A E) :
    (s.findDeadlock enabled r (before ++ c :: after)).2 = .ok (some c) := by
  induction before generalizing r with
  | nil => simp [findDeadlock, hc]
  | cons d before ih =>
      have hd := hbefore d (List.mem_cons_self ..)
      have hrest := ih (fun b hb => hbefore b (List.mem_cons_of_mem _ hb)) (s.hear r (enabled d))
      simpa [findDeadlock, hd] using hrest

/-- A scan that ends well has met an action in every configuration before the one that it gives. -/
theorem findDeadlock_eq_ok {found : Option C}
    (h : (s.findDeadlock enabled r configurations).2 = .ok found) :
    match found with
    | none => ∀ c ∈ configurations, (enabled c).nonempty = .ok true
    | some c => ∃ before after, configurations = before ++ c :: after ∧
        (∀ d ∈ before, (enabled d).nonempty = .ok true) ∧ (enabled c).nonempty = .ok false := by
  induction configurations generalizing r with
  | nil =>
      cases h
      simp
  | cons d rest ih =>
      cases hn : (enabled d).nonempty with
      | error e => simp [findDeadlock, hn] at h
      | ok b =>
          cases b with
          | false =>
              simp only [findDeadlock, hn, Except.ok.injEq] at h
              subst h
              exact ⟨[], rest, rfl, by simp, hn⟩
          | true =>
              simp only [findDeadlock, hn] at h
              have hrest := ih h
              cases found with
              | none => simpa [hn] using hrest
              | some c =>
                  obtain ⟨before, after, hsplit, hbefore, hc⟩ := hrest
                  refine ⟨d :: before, after, by simp [hsplit], ?_, hc⟩
                  simpa [hn] using hbefore

variable [DecidableEq K] {fuel : Nat} {x : Run C K A E}

/-- An exploration that returns within its budget is complete. -/
theorem complete_of_exhaust {start : Rat} (h : s.exhaust fuel (.initial start) = some (x, none))
    (hb : x.outcome.budgetExceeded = false) : x.complete = true := by
  obtain ⟨r₁, hd, -, hn, -⟩ := discovers_of_exhaust h
  have hopen : r₁.phase ≠ .closed := hd.phase_ne_closed (by simp [Run.initial])
  have hreason : x.budgetReason.isSome = false := hb
  rcases (leads_of_next hn).done hopen with hfinished | hsome
  · simpa [Run.complete, hfinished] using hreason
  · rw [hreason] at hsome
    cases hsome

/-- The first deadlock among the stored configurations is reported, if there is a path to it. -/
theorem checkDeadlockFree_stops {before after : List C} {c : C}
    (hx : s.exhaust fuel r = some (x, none)) (hlist : x.store.toList = before ++ c :: after)
    (hbefore : ∀ d ∈ before, (enabled d).nonempty = .ok true)
    (hc : (enabled c).nonempty = .ok false) :
    ∃ r' configurations transitions elapsed, s.checkDeadlockFree enabled fuel r =
      some (r', (s.traceback x.forest c).map fun steps =>
        { status := .deadlock
          property := deadlockFreedom
          configurations := configurations
          transitions := transitions
          counterexample := some ⟨"deadlock", deadlockFreedom, c, steps⟩
          elapsed := elapsed
          budgetReason := none }) := by
  have hfound : (s.findDeadlock enabled x (before ++ c :: after)).2 = .ok (some c) :=
    findDeadlock_of_first hbefore hc x
  obtain ⟨-, hforest, -⟩ := s.findDeadlock_found enabled x (before ++ c :: after)
  unfold checkDeadlockFree
  simp only [hx, hlist]
  cases hd : s.findDeadlock enabled x (before ++ c :: after) with
  | mk y found =>
      rw [hd] at hfound hforest
      cases hfound
      have hy : y.forest = x.forest := hforest
      simp only [refute, Run.note, hy]
      exact ⟨_, _, _, _, rfl⟩

theorem checkDeadlockFree_passes (hx : s.exhaust fuel r = some (x, none))
    (hall : ∀ c ∈ x.store.toList, (enabled c).nonempty = .ok true) :
    ∃ r' v, s.checkDeadlockFree enabled fuel r = some (r', .ok v) ∧ v.counterexample = none ∧
      v.status = if x.outcome.budgetExceeded then .budgetExceeded else .holds := by
  have hfound := findDeadlock_of_all (s := s) hall x
  have hreason := s.findDeadlock_budgetReason enabled x x.store.toList
  unfold checkDeadlockFree
  simp only [hx]
  cases hd : s.findDeadlock enabled x x.store.toList with
  | mk y found =>
      rw [hd] at hfound hreason
      cases hfound
      have hy : y.budgetReason = x.budgetReason := hreason
      refine ⟨_, _, rfl, ?_, ?_⟩
      · simp only [conclude_eq]
      · rw [conclude_eq]
        change (if y.budgetReason.isSome then Status.budgetExceeded else Status.holds) = _
        rw [hy]
        rfl

/-- What an exploration must have stored for a verdict on deadlock freedom. -/
theorem checkDeadlockFree_eq_ok {v : Verdict C A}
    (h : s.checkDeadlockFree enabled fuel r = some (r', .ok v)) :
    ∃ x, s.exhaust fuel r = some (x, none) ∧
      ((∃ before c after steps, x.store.toList = before ++ c :: after ∧
          (∀ d ∈ before, (enabled d).nonempty = .ok true) ∧ (enabled c).nonempty = .ok false ∧
          s.traceback x.forest c = .ok steps ∧ v.status = .deadlock ∧
          v.counterexample = some ⟨"deadlock", deadlockFreedom, c, steps⟩) ∨
        ((∀ c ∈ x.store.toList, (enabled c).nonempty = .ok true) ∧ v.counterexample = none ∧
          v.status = if x.outcome.budgetExceeded then .budgetExceeded else .holds)) := by
  cases hx : s.exhaust fuel r with
  | none => simp [checkDeadlockFree, hx] at h
  | some exhausted =>
      obtain ⟨x, failure⟩ := exhausted
      cases failure with
      | some failure => simp [checkDeadlockFree, hx] at h
      | none =>
          refine ⟨x, rfl, ?_⟩
          cases hd : (s.findDeadlock enabled x x.store.toList).2 with
          | error e =>
              unfold checkDeadlockFree at h
              simp only [hx] at h
              cases hd' : s.findDeadlock enabled x x.store.toList with
              | mk y found =>
                  rw [hd'] at h hd
                  cases hd
                  simp at h
          | ok found =>
              have hscan := findDeadlock_eq_ok hd
              cases found with
              | none =>
                  obtain ⟨y, w, hw, hce, hstatus⟩ := checkDeadlockFree_passes hx hscan
                  rw [hw] at h
                  cases h
                  exact Or.inr ⟨hscan, hce, hstatus⟩
              | some c =>
                  obtain ⟨before, after, hlist, hbefore, hc⟩ := hscan
                  obtain ⟨y, n, m, t, hw⟩ := checkDeadlockFree_stops hx hlist hbefore hc
                  rw [hw] at h
                  cases ht : s.traceback x.forest c with
                  | error failure =>
                      rw [ht] at h
                      simp [Except.map] at h
                  | ok steps =>
                      rw [ht] at h
                      cases h
                      exact Or.inl ⟨before, c, after, steps, hlist, hbefore, hc, ht, rfl, rfl⟩

end Search

namespace Search

variable {s : ValueSearch} {R : Relation}

def Agree (s : ValueSearch) (R : Relation) : Prop :=
  ∀ c d, s.Alike c d → (R.HasAction c ↔ R.HasAction d)

/-- What a complete exploration has stored decides about all that can be reached. -/
theorem Session.stuck_stored {x : ValueRun} (hx : s.Session x) (hcomplete : x.complete = true)
    (hgraph : s.graph = R.toGraph) (hs : s.Coherent) (hR : s.Agree R) {c : Value}
    (hc : s.graph.Reachable c) (hstuck : ¬ R.HasAction c) :
    ∃ d ∈ x.store.toList, R.Stuck d := by
  obtain ⟨hroots, hedges⟩ := hx.kept_of_complete hcomplete
  obtain ⟨d, hd, halike⟩ :=
    (kept_of_reachable hs hx.sound.history hroots hedges hc).alike_stored hx.sound.history
  have hfault := hx.fault_eq_none_of_complete hcomplete d hd
  rw [hgraph] at hfault
  have hnone : ¬ R.HasAction d := fun h => hstuck ((hR c d halike).mpr h)
  exact ⟨d, hd, R.stuck_of_not_hasAction hnone hfault⟩

/-- The first stuck configuration of a list in which no question fails. -/
theorem exists_first_stuck {configurations : List Value}
    (hasked : ∀ c ∈ configurations, R.HasAction c ∨ R.Stuck c)
    (h : ∃ c ∈ configurations, R.Stuck c) :
    ∃ before c after, configurations = before ++ c :: after ∧ (∀ d ∈ before, R.HasAction d) ∧
      R.Stuck c := by
  induction configurations with
  | nil =>
      obtain ⟨c, hc, -⟩ := h
      cases hc
  | cons d rest ih =>
      rcases hasked d (List.mem_cons_self ..) with hd | hd
      · have hrest : ∃ c ∈ rest, R.Stuck c := by
          obtain ⟨c, hc, hstuck⟩ := h
          rcases List.mem_cons.mp hc with rfl | hc
          · exact absurd hd (R.not_hasAction_of_stuck hstuck)
          · exact ⟨c, hc, hstuck⟩
        obtain ⟨before, c, after, hsplit, hbefore, hstuck⟩ :=
          ih (fun c hc => hasked c (List.mem_cons_of_mem _ hc)) hrest
        refine ⟨d :: before, c, after, by simp [hsplit], ?_, hstuck⟩
        simpa [hd] using hbefore
      · exact ⟨[], d, rest, rfl, by simp, hd⟩

/-- A check that holds has scanned all that a complete exploration has stored. -/
theorem checkDeadlockFree_holds {start : Rat} {fuel : Nat} {r : ValueRun} {v : ValueVerdict}
    (hgraph : s.graph = R.toGraph) (hs : s.Coherent) (hR : s.Agree R)
    (h : s.checkDeadlockFree R.enabled fuel (.initial start) = some (r, .ok v))
    (hv : v.status = .holds) {c : Value} (hc : s.graph.Reachable c) : R.HasAction c := by
  obtain ⟨x, hx, hverdict⟩ := checkDeadlockFree_eq_ok h
  rcases hverdict with ⟨_, _, _, _, -, -, -, -, hstatus, -⟩ | ⟨hall, -, hstatus⟩
  · rw [hstatus] at hv
    cases hv
  · have hbudget : x.outcome.budgetExceeded = false := by
      cases hb : x.outcome.budgetExceeded with
      | false => rfl
      | true => simp [hstatus, hb] at hv
    by_contra hnone
    obtain ⟨d, hd, hstuck⟩ := ((Session.initial start).exhaust hx).stuck_stored
      (complete_of_exhaust hx hbudget) hgraph hs hR hc hnone
    exact R.not_hasAction_of_stuck hstuck (Reply.nonempty_eq_true.mp (hall d hd))

theorem checkDeadlockFree_deadlock {start : Rat} {fuel : Nat} {r : ValueRun} {v : ValueVerdict}
    (h : s.checkDeadlockFree R.enabled fuel (.initial start) = some (r, .ok v))
    (hv : v.status = .deadlock) :
    ∃ x ce before after, s.exhaust fuel (.initial start) = some (x, none) ∧
      v.counterexample = some ce ∧ x.outcome.store.toList = before ++ ce.configuration :: after ∧
      s.graph.Reachable ce.configuration ∧ R.Stuck ce.configuration ∧
      ∀ d ∈ before, R.HasAction d := by
  obtain ⟨x, hx, hverdict⟩ := checkDeadlockFree_eq_ok h
  rcases hverdict with ⟨before, c, after, _, hlist, hbefore, hc, -, -, hce⟩ | ⟨-, -, hstatus⟩
  · have hmem : c ∈ x.store.toList := by simp [hlist]
    obtain ⟨k, hk⟩ := x.store.mem_toList.mp hmem
    have hreach := ((Session.initial start).exhaust hx).sound.history.reachable_of_mem hk
    exact ⟨x, _, before, after, hx, hce, hlist, hreach, Reply.nonempty_eq_false.mp hc,
      fun d hd => Reply.nonempty_eq_true.mp (hbefore d hd)⟩
  · rw [hstatus] at hv
    split at hv <;> cases hv

theorem checkDeadlockFree_budgetExceeded {start : Rat} {fuel : Nat} {r : ValueRun}
    {v : ValueVerdict}
    (h : s.checkDeadlockFree R.enabled fuel (.initial start) = some (r, .ok v))
    (hv : v.status = .budgetExceeded) :
    ∃ x, s.exhaust fuel (.initial start) = some (x, none) ∧ x.outcome.budgetExceeded = true ∧
      ∀ c ∈ x.outcome.store.toList, R.HasAction c := by
  obtain ⟨x, hx, hverdict⟩ := checkDeadlockFree_eq_ok h
  rcases hverdict with ⟨_, _, _, _, -, -, -, -, hstatus, -⟩ | ⟨hall, -, hstatus⟩
  · rw [hstatus] at hv
    cases hv
  · refine ⟨x, hx, ?_, fun c hc => Reply.nonempty_eq_true.mp (hall c hc)⟩
    cases hb : x.outcome.budgetExceeded with
    | true => rfl
    | false => simp [hstatus, hb] at hv

/-- After a complete exploration the scan asks no question that fails. -/
theorem Session.asked_of_complete {x : ValueRun} (hx : s.Session x) (hcomplete : x.complete = true)
    (hgraph : s.graph = R.toGraph) : ∀ c ∈ x.store.toList, R.HasAction c ∨ R.Stuck c := by
  intro c hc
  by_cases hhas : R.HasAction c
  · exact Or.inl hhas
  · have hfault := hx.fault_eq_none_of_complete hcomplete c hc
    rw [hgraph] at hfault
    exact Or.inr (R.stuck_of_not_hasAction hhas hfault)

/-- The first stuck configuration that is stored is reported, or raised if its key is made anew at
each look. -/
theorem checkDeadlockFree_of_stuck {start : Rat} {fuel : Nat} {x : ValueRun}
    (hx : s.exhaust fuel (.initial start) = some (x, none))
    (hasked : ∀ c ∈ x.store.toList, R.HasAction c ∨ R.Stuck c)
    (hstuck : ∃ c ∈ x.store.toList, R.Stuck c) :
    ∃ r answer, s.checkDeadlockFree R.enabled fuel (.initial start) = some (r, answer) ∧
      ((∃ v, answer = .ok v ∧ v.status = .deadlock) ∨
        ∃ c, answer = .error (.unreachable c) ∧ s.identify c = .ok none ∧ R.Stuck c) := by
  have hsound := ((Session.initial start).exhaust hx).sound
  obtain ⟨before, c, after, hlist, hbefore, hc⟩ := exists_first_stuck hasked hstuck
  obtain ⟨r, n, m, t, hcheck⟩ := checkDeadlockFree_stops hx hlist
    (fun d hd => Reply.nonempty_eq_true.mpr (hbefore d hd)) (Reply.nonempty_eq_false.mpr hc)
  have hmem : c ∈ x.store.toList := by simp [hlist]
  obtain ⟨k, hk⟩ := x.store.mem_toList.mp hmem
  have hid := hsound.history.identify_of_mem hk
  refine ⟨r, _, hcheck, ?_⟩
  cases k with
  | some k =>
      rw [(hsound.traceback_eq hmem hid).1]
      exact Or.inl ⟨_, rfl, rfl⟩
  | none =>
      have hnone : s.traceback x.forest c = .error (.unreachable c) := by
        simp [traceback, hid, Forest.steps?, Forest.contains]
      rw [hnone]
      exact Or.inr ⟨c, rfl, hid, hc⟩

/-- For a relation whose explored states agree on having an enabled action, the verdict on deadlock
freedom is right: if it holds, some action is enabled everywhere; a reported deadlock is reachable
and is the first among the stored configurations; if the budget is exceeded, none has been stored.
After a complete exploration a deadlock is reported, or a configuration is raised as unreachable,
exactly if one can be reached; what is raised so is a deadlock whose key is made anew at each
look. -/
theorem checkDeadlockFree_exact (s : ValueSearch) (R : Relation) (hgraph : s.graph = R.toGraph)
    (hs : s.Coherent) (hR : s.Agree R) (start : Rat) (fuel : Nat) :
    (∀ r v, s.checkDeadlockFree R.enabled fuel (.initial start) = some (r, .ok v) →
      (v.status = .holds → ∀ c, s.graph.Reachable c → R.HasAction c) ∧
      (v.status = .deadlock → ∃ x ce before after,
        s.exhaust fuel (.initial start) = some (x, none) ∧ v.counterexample = some ce ∧
        x.outcome.store.toList = before ++ ce.configuration :: after ∧
        s.graph.Reachable ce.configuration ∧ R.Stuck ce.configuration ∧
        ∀ d ∈ before, R.HasAction d) ∧
      (v.status = .budgetExceeded → ∃ x,
        s.exhaust fuel (.initial start) = some (x, none) ∧ x.outcome.budgetExceeded = true ∧
        ∀ c ∈ x.outcome.store.toList, R.HasAction c)) ∧
    (∀ x, s.exhaust fuel (.initial start) = some (x, none) → x.outcome.complete = true →
      ∃ r answer, s.checkDeadlockFree R.enabled fuel (.initial start) = some (r, answer) ∧
        (((∃ v, answer = .ok v ∧ v.status = .deadlock) ∨ ∃ c, answer = .error (.unreachable c)) ↔
          ∃ c, s.graph.Reachable c ∧ R.Stuck c) ∧
        ∀ c, answer = .error (.unreachable c) → s.identify c = .ok none ∧ R.Stuck c) := by
  refine ⟨fun r v h => ⟨?_, checkDeadlockFree_deadlock h, checkDeadlockFree_budgetExceeded h⟩, ?_⟩
  · intro hv c hc
    exact checkDeadlockFree_holds hgraph hs hR h hv hc
  · intro x hx hcomplete
    have hsession : s.Session x := (Session.initial start).exhaust hx
    have hasked := hsession.asked_of_complete hcomplete hgraph
    by_cases hstuck : ∃ c ∈ x.store.toList, R.Stuck c
    · obtain ⟨r, answer, hcheck, hreport⟩ := checkDeadlockFree_of_stuck hx hasked hstuck
      obtain ⟨c, hmem, hc⟩ := hstuck
      obtain ⟨k, hk⟩ := x.store.mem_toList.mp hmem
      have hreach := hsession.sound.history.reachable_of_mem hk
      refine ⟨r, answer, hcheck, ⟨fun _ => ⟨c, hreach, hc⟩, fun _ => ?_⟩, fun d hd => ?_⟩
      · exact hreport.imp_right fun ⟨d, hd, _⟩ => ⟨d, hd⟩
      · rcases hreport with ⟨v, hv, -⟩ | ⟨d', hd', hraised⟩
        · cases hv.symm.trans hd
        · cases hd'.symm.trans hd
          exact hraised
    · have hactions : ∀ c ∈ x.store.toList, (R.enabled c).nonempty = .ok true := by
        intro c hc
        have hhas := (hasked c hc).resolve_right fun h => hstuck ⟨c, hc, h⟩
        exact Reply.nonempty_eq_true.mpr hhas
      obtain ⟨r, v, hcheck, -, hstatus⟩ := checkDeadlockFree_passes hx hactions
      refine ⟨r, .ok v, hcheck, ⟨?_, ?_⟩, fun _ hw => by cases hw⟩
      · rintro (⟨w, hw, hdeadlock⟩ | ⟨c, hw⟩)
        · cases hw
          rw [hstatus] at hdeadlock
          split at hdeadlock <;> cases hdeadlock
        · cases hw
      · rintro ⟨c, hc, hnone⟩
        exact absurd (hsession.stuck_stored hcomplete hgraph hs hR hc
          (R.not_hasAction_of_stuck hnone)) hstuck

end Search

/-- A key that can be met again is the canonical form of what the key function makes. -/
theorem canon_of_identify {f : KeyFunction} {c : Value} {k : Canon}
    (h : identify (some f) c = .ok (some k)) : ∃ v, f c = .ok v ∧ v.canon = k := by
  unfold identify identityKey at h
  cases hf : f c with
  | error e => simp [hf, bind, Except.bind] at h
  | ok v =>
      refine ⟨v, rfl, ?_⟩
      cases hu : v.unhashable? with
      | some typeName => simp [hf, hu, bind, Except.bind] at h
      | none =>
          simp only [hf, hu, bind, Except.bind, pure, Except.pure, Except.ok.injEq] at h
          split at h
          · exact Option.some.inj h
          · cases h

/-- Three roots: in the first an action without successors is enabled, in the second none is, and
the third has a successor in which none is. -/
def Relation.forked : Relation where
  title := "Forked"
  text := "Forked()"
  roots := [.int 1, .int 2, .int 3]
  enabled c :=
    { items :=
        if c == .int 1 then [.value (.str "wait")]
        else if c == .int 3 then [.value (.str "go")]
        else [] }
  execute _ c := .ok (if c == .int 3 then [.int 4] else [])

namespace Search

def forked (key : Option KeyFunction) : ValueSearch where
  graph := Relation.forked.toGraph
  plan := ⟨none, none, .breadthFirst, false, .ofInt 1⟩
  identify := StateSpace.identify key
  clock := .steady 1

theorem forked_same_of_alike {c d : Value} (h : (forked none).Alike c d) (v : Value) :
    (c == v) = (d == v) := by
  have hcanon : c.canon = d.canon := by
    rcases h with rfl | ⟨k, hc, hd⟩
    · rfl
    · -- without a key function a configuration is its own key
      obtain ⟨_, ⟨⟩, hkc⟩ := canon_of_identify (f := .ok) hc
      obtain ⟨_, ⟨⟩, hkd⟩ := canon_of_identify (f := .ok) hd
      exact hkc.trans hkd.symm
  simp only [BEq.beq, hcanon]

theorem forked_edges_congr {c d : Value} (h₁ : (c == .int 1) = (d == .int 1))
    (h₃ : (c == .int 3) = (d == .int 3)) :
    (Relation.forked.edges c).items = (Relation.forked.edges d).items := by
  simp only [Relation.edges, Relation.forked, h₁, h₃]

theorem forked_coherent : (forked none).Coherent := by
  intro c d h e he
  have hedges := forked_edges_congr (forked_same_of_alike h _) (forked_same_of_alike h _)
  exact ⟨e, hedges ▸ he, Or.inl rfl⟩

theorem forked_agree : (forked none).Agree Relation.forked := by
  intro c d h
  have hc := forked_same_of_alike h (.int 1)
  have hd := forked_same_of_alike h (.int 3)
  simp only [Relation.HasAction, Relation.forked, hc, hd]

/-- The action without successors does not make its configuration a deadlock: the one behind it is
reported. -/
theorem forked_checkDeadlockFree_exact :
    (∃ r v x ce before after,
      (forked none).checkDeadlockFree Relation.forked.enabled 5 (.initial 0) = some (r, .ok v) ∧
      v.status = .deadlock ∧ (forked none).exhaust 5 (.initial 0) = some (x, none) ∧
      v.counterexample = some ce ∧ x.outcome.store.toList = before ++ ce.configuration :: after ∧
      ce.configuration = .int 2 ∧ Relation.forked.Stuck ce.configuration ∧
      ∀ d ∈ before, Relation.forked.HasAction d) ∧
    ∃ x r answer, (forked none).exhaust 5 (.initial 0) = some (x, none) ∧
      x.outcome.complete = true ∧
      (forked none).checkDeadlockFree Relation.forked.enabled 5 (.initial 0) = some (r, answer) ∧
      ((∃ v, answer = .ok v ∧ v.status = .deadlock) ∨ ∃ c, answer = .error (.unreachable c)) ∧
      ∀ c, answer = .error (.unreachable c) →
        (forked none).identify c = .ok none ∧ Relation.forked.Stuck c := by
  obtain ⟨hverdict, hcomplete⟩ :=
    checkDeadlockFree_exact (forked none) Relation.forked rfl forked_coherent forked_agree 0 5
  refine ⟨?_, ?_⟩
  · have hrun : ∃ r v ce,
        (forked none).checkDeadlockFree Relation.forked.enabled 5 (.initial 0) =
          some (r, .ok v) ∧ v.status = .deadlock ∧ v.counterexample = some ce ∧
          ce.configuration = .int 2 := ⟨_, _, _, rfl, rfl, rfl, rfl⟩
    obtain ⟨r, v, ce, h, hv, hce, hconf⟩ := hrun
    obtain ⟨x, ce', before, after, hx, hce', hlist, -, hstuck, hbefore⟩ :=
      (hverdict r v h).2.1 hv
    have hsame : ce' = ce := Option.some.inj (hce'.symm.trans hce)
    subst hsame
    exact ⟨r, v, x, ce', before, after, h, hv, hx, hce', hlist, hconf, hstuck, hbefore⟩
  · have hrun : ∃ x, (forked none).exhaust 5 (.initial 0) = some (x, none) ∧
        x.outcome.complete = true := ⟨_, rfl, rfl⟩
    obtain ⟨x, hx, hc⟩ := hrun
    obtain ⟨r, answer, hcheck, hiff, hraised⟩ := hcomplete x hx hc
    have hreach : (forked none).graph.Reachable (.int 2) :=
      .root (show Value.int 2 ∈ [Value.int 1, .int 2, .int 3] by simp)
    exact ⟨x, r, answer, hx, hc, hcheck, hiff.mpr ⟨.int 2, hreach, rfl, rfl⟩, hraised⟩

end Search

def Relation.silent : Relation where
  title := "Silent"
  text := "Silent()"
  roots := [.int 0]
  enabled _ := { items := [] }
  execute _ _ := .ok []

namespace Search

def silent : ValueSearch := { transient with graph := Relation.silent.toGraph }

/-- Under keys that are made anew at each look a complete exploration of one deadlock is not
followed by a verdict. -/
theorem silent_deadlock_unreported :
    silent.graph = Relation.silent.toGraph ∧
      silent.identify = StateSpace.identify (some (Expr.stream []).toKey) ∧
      silent.plan.raiseOnBudget = false ∧ silent.Coherent ∧ silent.Agree Relation.silent ∧
      silent.graph.Reachable (.int 0) ∧ Relation.silent.Stuck (.int 0) ∧
      ∃ x r, silent.exhaust 2 (.initial 0) = some (x, none) ∧ x.outcome.complete = true ∧
        silent.checkDeadlockFree Relation.silent.enabled 2 (.initial 0) =
          some (r, .error (.unreachable (.int 0))) := by
  refine ⟨rfl, rfl, rfl, ?_, ?_, ?_, ⟨rfl, rfl⟩, _, _, rfl, rfl, rfl⟩
  · intro c d _ e he
    cases he
  · intro c d _
    exact Iff.rfl
  · exact .root (List.mem_singleton.mpr rfl)

end Search

end StateSpace
