import StateSpace.Proofs.Check
import StateSpace.Proofs.Discovery
import StateSpace.Report

/-!
# Traces are executions

The path that a forest holds to a stored configuration is a path of the graph, at every point of a
session, and so are the steps of every counterexample. In the graph of a relation each step of a
path is a successor of an action that is enabled in the configuration before it.
-/

namespace StateSpace

namespace Search

variable {C K A E : Type} [DecidableEq K] {s : Search C K A E} {r r' : Run C K A E}

/-- The forest finds a stored configuration if its key can be met again. -/
theorem Sound.traceback_eq (h : s.Sound r) {k : K} {c : C} (hc : c ∈ r.store.toList)
    (hk : s.identify c = .ok (some k)) :
    s.traceback r.forest c = .ok (Forest.path (some k) c r.forest.nodes) ∧
      s.graph.Trace (Forest.path (some k) c r.forest.nodes) c := by
  obtain ⟨j, hj⟩ := r.store.mem_toList.mp hc
  have hjk : j = some k := Except.ok.inj ((h.history.identify_of_mem hj).symm.trans hk)
  subst hjk
  have hknown : r.forest.contains (some k) = true :=
    (h.history.contains_eq _).trans (r.store.contains_of_mem hj)
  refine ⟨?_, h.history.trace_path hj⟩
  simp only [traceback, hk, Forest.steps?, hknown, if_true]

theorem Sound.trace_of_traceback (h : s.Sound r) {c : C} {steps : List (Step C A)}
    (hc : c ∈ r.store.toList) (ht : s.traceback r.forest c = .ok steps) :
    s.graph.Trace steps c := by
  cases hk : s.identify c with
  | error e => simp [traceback, hk] at ht
  | ok key =>
      cases key with
      | none =>
          have hnone : r.forest.contains none = false := by simp [Forest.contains]
          simp [traceback, hk, Forest.steps?, hnone] at ht
      | some k =>
          obtain ⟨heq, htrace⟩ := h.traceback_eq hc hk
          rw [heq] at ht
          exact Except.ok.inj ht ▸ htrace

theorem Session.checkAll_trace {predicates : List (Predicate C E)} {fuel : Nat}
    {v : Verdict C A} {ce : Counterexample C A} (hr : s.Session r)
    (h : s.checkAll predicates fuel r = some (r', .ok v)) (hce : v.counterexample = some ce) :
    s.graph.Trace ce.steps ce.configuration := by
  obtain ⟨found, r₁, r₂, signal, hd, -, -, hn, hs⟩ := checkAll_eq_some.mp h
  have hr₂ : s.Session r₂ := (hd.session hr).of_next hn
  rcases settle_eq_ok hs with ⟨-, rfl⟩ | ⟨c, name, rfl, -, hrefute⟩
  · rw [conclude_eq] at hce
    cases hce
  · obtain ⟨steps, ht, -, -, hv⟩ := refute_eq_ok hrefute
    rw [hv] at hce
    cases hce
    obtain ⟨k, -, -, hstore, -⟩ := (leads_of_next hn).discovers
    have hc : c ∈ r₂.store.toList := by
      rw [hstore, Store.toList_push]
      exact List.mem_append_right _ (List.mem_singleton.mpr rfl)
    exact hr₂.sound.trace_of_traceback hc ht

theorem Session.checkDeadlockFree_trace {enabled : C → Reply C E A} {fuel : Nat}
    {v : Verdict C A} {ce : Counterexample C A} (hr : s.Session r)
    (h : s.checkDeadlockFree enabled fuel r = some (r', .ok v)) (hce : v.counterexample = some ce) :
    s.graph.Trace ce.steps ce.configuration := by
  obtain ⟨r₁, he, hc, ht⟩ := checkDeadlockFree_counterexample h hce
  exact (hr.exhaust he).sound.trace_of_traceback hc ht

end Search

namespace Reply

variable {C E α β : Type}

theorem mem_expand {f : α → Except E (List β)} {fault : Option E} {items : List α} {b : β}
    (h : b ∈ (expand f fault items).1) : ∃ a ∈ items, ∃ bs, f a = .ok bs ∧ b ∈ bs := by
  induction items with
  | nil => simp [expand] at h
  | cons a rest ih =>
      unfold expand at h
      cases ha : f a with
      | error e => simp [ha] at h
      | ok bs =>
          simp only [ha, List.mem_append] at h
          rcases h with hb | hb
          · exact ⟨a, List.mem_cons_self .., bs, ha, hb⟩
          · obtain ⟨a', hmem, hrest⟩ := ih hb
            exact ⟨a', List.mem_cons_of_mem _ hmem, hrest⟩

end Reply

namespace Relation

inductive Execution (R : Relation) : List TraceStep → Value → Prop where
  | root {c : Value} (h : c ∈ R.roots) : Execution R [⟨c, none⟩] c
  | step {steps : List TraceStep} {p c : Value} {action : Action} {successors : List Value}
      (h : Execution R steps p) (ha : action ∈ (R.enabled p).items)
      (he : R.execute action p = .ok successors) (hc : c ∈ successors) :
      Execution R (steps ++ [⟨c, action.label⟩]) c

theorem mem_edges {R : Relation} {p : Value} {e : Option Action × Value}
    (h : e ∈ (R.edges p).items) : ∃ action ∈ (R.enabled p).items, ∃ successors,
      R.execute action p = .ok successors ∧ e.2 ∈ successors ∧ e.1 = action.label := by
  obtain ⟨action, ha, pairs, hpairs, he⟩ := Reply.mem_expand h
  cases hx : R.execute action p with
  | error f => simp [hx, bind, Except.bind] at hpairs
  | ok successors =>
      simp only [hx, bind, Except.bind, pure, Except.pure, Except.ok.injEq] at hpairs
      subst hpairs
      obtain ⟨d, hd, rfl⟩ := List.mem_map.mp he
      exact ⟨action, ha, successors, hx, hd, rfl⟩

theorem execution_of_trace {R : Relation} {steps : List TraceStep} {c : Value}
    (h : R.toGraph.Trace steps c) : R.Execution steps c := by
  induction h with
  | root hc => exact .root hc
  | step _ he ih =>
      obtain ⟨action, ha, successors, hx, hc, hlabel⟩ := mem_edges he
      dsimp only at hlabel
      rw [hlabel]
      exact .step ih ha hx hc

end Relation

/-- The paths of a graph of values. If the graph is that of a relation, they are its executions. -/
def Graph.Executes (g : ValueGraph) (steps : List TraceStep) (c : Value) : Prop :=
  g.Trace steps c ∧ ∀ R : Relation, g = R.toGraph → R.Execution steps c

theorem Graph.executes_of_trace {g : ValueGraph} {steps : List TraceStep} {c : Value}
    (h : g.Trace steps c) : g.Executes steps c := by
  refine ⟨h, ?_⟩
  rintro R rfl
  exact R.execution_of_trace h

theorem Lineage.steps_eq_of_traceback {s : ValueSearch} {key : Option KeyFunction}
    (hkey : s.identify = identify key) {forest : Forest Canon Value Action} {c : Value}
    {steps : List TraceStep} (h : s.traceback forest c = .ok steps) :
    (Lineage.mk key forest).steps c = .ok steps := by
  unfold Search.traceback at h
  rw [hkey] at h
  unfold Lineage.steps
  cases hk : identify key c with
  | error e => simp [hk] at h
  | ok k =>
      cases hf : forest.steps? k c with
      | none => simp [hk, hf] at h
      | some found =>
          simp only [hk, hf, Except.ok.injEq] at h
          subst h
          simp [bind, Except.bind, pure, Except.pure, hf]

/-- A configuration whose key is made anew at each look is found in no lineage. -/
theorem Lineage.steps_of_transient {key : Option KeyFunction} (forest : Forest Canon Value Action)
    {c : Value} (h : identify key c = .ok none) :
    (Lineage.mk key forest).steps c = .error (.unreachable c) := by
  have hnone : forest.steps? none c = none := by simp [Forest.steps?, Forest.contains]
  unfold Lineage.steps
  simp [h, bind, Except.bind, hnone]

/-- What a lineage tells of a known configuration stays as its forest grows. -/
theorem Lineage.eq_of_extends {key : Option KeyFunction} {forest grown : Forest Canon Value Action}
    {c : Value} {k : Key Canon} (h : forest.Extends grown) (hk : identify key c = .ok k)
    (hknown : forest.contains k = true) :
    (Lineage.mk key grown).steps c = (Lineage.mk key forest).steps c ∧
      (Lineage.mk key grown).depth c = (Lineage.mk key forest).depth c ∧
      (Lineage.mk key grown).isRoot c = (Lineage.mk key forest).isRoot c ∧
      (Lineage.mk key grown).parentOf c = (Lineage.mk key forest).parentOf c := by
  have hsteps : (Lineage.mk key grown).steps c = (Lineage.mk key forest).steps c := by
    simp only [steps, hk, bind, Except.bind, h.steps?_eq c hknown]
  refine ⟨hsteps, ?_, ?_, ?_⟩
  · rw [depth, depth, hsteps]
  · simp only [isRoot, hk, bind, Except.bind, Forest.isRoot, h.origin?_eq hknown]
  · simp only [parentOf, hk, bind, Except.bind, h.origin?_eq hknown]

/-- At every point of a session the lineage of a run has an execution that leads to each stored
configuration whose key can be met again, and it finds none for the others. Every counterexample is
an execution. -/
theorem steps_executes (s : ValueSearch) (key : Option KeyFunction)
    (hkey : s.identify = identify key) :
    (∀ r, s.Session r → ∀ c ∈ r.store.toList, ∀ k, s.identify c = .ok (some k) →
      ∃ steps, (Lineage.mk key r.forest).steps c = .ok steps ∧ s.graph.Executes steps c) ∧
    (∀ r, s.Session r → ∀ c ∈ r.store.toList, (∀ k, s.identify c ≠ .ok (some k)) →
      (Lineage.mk key r.forest).steps c = .error (.unreachable c)) ∧
    (∀ predicates fuel start r v ce,
      s.checkAll predicates fuel (.initial start) = some (r, .ok v) →
        v.counterexample = some ce → s.graph.Executes ce.steps ce.configuration) ∧
    (∀ enabled fuel start r v ce,
      s.checkDeadlockFree enabled fuel (.initial start) = some (r, .ok v) →
        v.counterexample = some ce → s.graph.Executes ce.steps ce.configuration) := by
  refine ⟨?_, ?_, ?_, ?_⟩
  · intro r hr c hc k hk
    obtain ⟨ht, htrace⟩ := hr.sound.traceback_eq hc hk
    exact ⟨_, Lineage.steps_eq_of_traceback hkey ht, Graph.executes_of_trace htrace⟩
  · intro r hr c hc hother
    obtain ⟨j, hj⟩ := r.store.mem_toList.mp hc
    have hid := hr.sound.history.identify_of_mem hj
    cases j with
    | none => exact Lineage.steps_of_transient r.forest (hkey ▸ hid)
    | some k => exact absurd hid (hother k)
  · intro predicates fuel start r v ce h hce
    exact Graph.executes_of_trace ((Search.Session.initial start).checkAll_trace h hce)
  · intro enabled fuel start r v ce h hce
    exact Graph.executes_of_trace ((Search.Session.initial start).checkDeadlockFree_trace h hce)

def Relation.single : Relation where
  title := "Single"
  text := "Single()"
  roots := [.int 0]
  enabled c := { items := if c == .int 0 then [.value (.str "go")] else [] }
  execute _ _ := .ok [.int 1]

def Search.single : ValueSearch where
  graph := Relation.single.toGraph
  plan := ⟨none, none, .depthFirst, false, .ofInt 1⟩
  identify := StateSpace.identify none
  clock := .steady 1

def Search.singleStopped : ValueRun :=
  (Search.single.next (Search.single.next (.initial 0)).1).1.stop

theorem single_steps_executes :
    (∃ steps, (Lineage.mk none Search.singleStopped.forest).steps (.int 1) = .ok steps ∧
      Search.single.graph.Executes steps (.int 1)) ∧
    ∃ r v ce, Search.single.checkDeadlockFree Relation.single.enabled 3 (.initial 0) =
      some (r, .ok v) ∧ v.counterexample = some ce ∧
        Search.single.graph.Executes ce.steps ce.configuration := by
  have hall := steps_executes Search.single none rfl
  refine ⟨?_, ?_⟩
  · have hr : Search.single.Session Search.singleStopped := .stop (.next (.next (.initial 0)))
    have hc : Value.int 1 ∈ Search.singleStopped.store.toList := by
      have hlist : Search.singleStopped.store.toList = [.int 0, .int 1] := rfl
      simp [hlist]
    exact hall.1 Search.singleStopped hr (.int 1) hc (.num (.ofInt 1)) rfl
  · have hfound : ∃ r v ce, Search.single.checkDeadlockFree Relation.single.enabled 3
        (.initial 0) = some (r, .ok v) ∧ v.counterexample = some ce := ⟨_, _, _, rfl, rfl⟩
    obtain ⟨r, v, ce, h, hce⟩ := hfound
    exact ⟨r, v, ce, h, hce, hall.2.2.2 _ _ _ _ _ _ h hce⟩

/-- Under keys that are made anew at each look, a stored root has no trace. -/
theorem transient_steps_unreachable :
    Search.transient.Session (Search.transient.next (.initial 0)).1 ∧
      (Search.transient.next (.initial 0)).1.store.toList = [.int 0] ∧
      (Lineage.mk (some (Expr.stream []).toKey) (Search.transient.next (.initial 0)).1.forest).steps
        (.int 0) = .error (.unreachable (.int 0)) :=
  ⟨.next (.initial 0), rfl, rfl⟩

end StateSpace
