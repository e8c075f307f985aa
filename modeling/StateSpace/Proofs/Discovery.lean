import StateSpace.Expr
import StateSpace.Proofs.Session
import StateSpace.Report

/-!
# Discoveries are made along paths

`Graph.Trace` are the paths of a graph that begin at a root. `History` tells how a store and a
forest have grown: each time by a root, or by a target of an edge that leaves a stored
configuration. Every session has such a history, so that each stored configuration lies at the end
of a path of the graph, and the forest holds one.
-/

namespace StateSpace

namespace Graph

variable {C A E : Type}

inductive Trace (g : Graph C A E) : List (Step C A) → C → Prop where
  | root {c : C} (h : c ∈ g.roots.items) : Trace g [⟨c, none⟩] c
  | step {steps : List (Step C A)} {p c : C} {action : Option A} (h : Trace g steps p)
      (he : (action, c) ∈ (g.edges p).items) : Trace g (steps ++ [⟨c, action⟩]) c

def Reachable (g : Graph C A E) (c : C) : Prop := ∃ steps, g.Trace steps c

theorem Reachable.root {g : Graph C A E} {c : C} (h : c ∈ g.roots.items) : g.Reachable c :=
  ⟨_, .root h⟩

theorem Reachable.step {g : Graph C A E} {p : C} {e : Option A × C} (h : g.Reachable p)
    (he : e ∈ (g.edges p).items) : g.Reachable e.2 := by
  obtain ⟨steps, ht⟩ := h
  exact ⟨_, .step ht he⟩

end Graph

namespace Search

variable {C K A E : Type} {s : Search C K A E}

/-- What a phase still has to meet is the rest of what the graph told. -/
def Told (s : Search C K A E) (store : Store K C) : Phase C K A E → Prop
  | .idle => True
  | .roots pending fault => pending <:+ s.graph.roots.items ∧ fault = s.graph.roots.fault
  | .edges source pending fault =>
      (source.key, source.configuration) ∈ store.entries ∧
        pending <:+ (s.graph.edges source.configuration).items ∧
        fault = (s.graph.edges source.configuration).fault
  | .closed => True

theorem Told.push {store : Store K C} {phase : Phase C K A E} (h : s.Told store phase)
    (k : Key K) (c : C) : s.Told (store.push k c) phase := by
  cases phase with
  | idle => trivial
  | roots pending fault => exact h
  | edges source pending fault =>
      exact ⟨(store.mem_entries_push k c _).mpr (Or.inl h.1), h.2⟩
  | closed => trivial

theorem mem_enqueue {strategy : Strategy} {w v : Waiting C K} {frontier : List (Waiting C K)} :
    v ∈ enqueue strategy w frontier ↔ v = w ∨ v ∈ frontier := by
  cases strategy <;> simp [enqueue, or_comm]

variable [DecidableEq K]

inductive History (s : Search C K A E) : Store K C → Forest K C A → Prop where
  | empty : History s ⟨[]⟩ ⟨[]⟩
  | root {store : Store K C} {forest : Forest K C A} {k : Key K} {c : C}
      (h : History s store forest) (hc : c ∈ s.graph.roots.items) (hk : s.identify c = .ok k)
      (hnew : store.contains k = false) :
      History s (store.push k c) ⟨⟨k, .root c⟩ :: forest.nodes⟩
  | child {store : Store K C} {forest : Forest K C A} {k : Key K} {c p : C} {j : K}
      {action : Option A} (h : History s store forest) (hp : (some j, p) ∈ store.entries)
      (he : (action, c) ∈ (s.graph.edges p).items) (hk : s.identify c = .ok k)
      (hnew : store.contains k = false) :
      History s (store.push k c) ⟨⟨k, .child p (some j) action⟩ :: forest.nodes⟩

namespace History

variable {store : Store K C} {forest : Forest K C A}

/-- The forest knows exactly the keys of the store. -/
theorem contains_eq (h : s.History store forest) (k : Key K) :
    forest.contains k = store.contains k := by
  induction h with
  | empty => rfl
  | root _ _ _ _ ih => simp [Bool.or_comm, ← ih]
  | child _ _ _ _ _ ih => simp [Bool.or_comm, ← ih]

/-- A child whose key is new is recorded only if the key of its parent can be met again. -/
theorem record?_of_new (h : s.History store forest) {k parentKey : Key K} {parent : C}
    {action : Option A} {grown : Forest K C A} (hnew : store.contains k = false)
    (hf : forest.record? k parent parentKey action = some grown) :
    (∃ j, parentKey = some j) ∧
      grown = ⟨⟨k, .child parent parentKey action⟩ :: forest.nodes⟩ := by
  obtain ⟨hparent, hgrown⟩ :=
    Forest.record?_of_new forest grown ((h.contains_eq k).trans hnew) hf
  rw [h.contains_eq, Store.contains_iff] at hparent
  obtain ⟨j, -, hj, -⟩ := hparent
  exact ⟨⟨j, hj⟩, hgrown⟩

theorem identify_of_mem (h : s.History store forest) {k : Key K} {c : C}
    (hc : (k, c) ∈ store.entries) : s.identify c = .ok k := by
  induction h with
  | empty => cases hc
  | root _ _ hk _ ih | child _ _ _ hk _ ih =>
      rcases (Store.mem_entries_push _ _ _ _).mp hc with hold | hnew
      · exact ih hold
      · cases hnew
        exact hk

theorem reachable_of_mem (h : s.History store forest) {k : Key K} {c : C}
    (hc : (k, c) ∈ store.entries) : s.graph.Reachable c := by
  induction h generalizing k c with
  | empty => cases hc
  | root _ hroot _ _ ih =>
      rcases (Store.mem_entries_push _ _ _ _).mp hc with hold | hnew
      · exact ih hold
      · cases hnew
        exact .root hroot
  | child _ hp he _ _ ih =>
      rcases (Store.mem_entries_push _ _ _ _).mp hc with hold | hnew
      · exact ih hold
      · cases hnew
        exact (ih hp).step he

/-- The forest's path to a stored configuration is a path of the graph. -/
theorem trace_path (h : s.History store forest) {k : K} {c : C}
    (hc : (some k, c) ∈ store.entries) :
    s.graph.Trace (Forest.path (some k) c forest.nodes) c := by
  induction h generalizing k c with
  | empty => cases hc
  | @root store forest key root h hroot _ hnew ih =>
      rcases (Store.mem_entries_push _ _ _ _).mp hc with hold | heq
      · -- the key is older than the new node, which the path therefore passes by
        rw [Forest.path_cons_other c forest.nodes (store.same_eq_false_of_mem hnew hold)]
        exact ih hold
      · cases heq
        simp only [Forest.path, Key.same_some, decide_true, if_true]
        exact .root hroot
  | @child store forest key child p j action h hp he _ hnew ih =>
      rcases (Store.mem_entries_push _ _ _ _).mp hc with hold | heq
      · rw [Forest.path_cons_other c forest.nodes (store.same_eq_false_of_mem hnew hold)]
        exact ih hold
      · cases heq
        simp only [Forest.path, Key.same_some, decide_true, if_true]
        exact .step (ih hp) he

end History

structure Sound (s : Search C K A E) (r : Run C K A E) : Prop where
  history : s.History r.store r.forest
  frontier : ∀ w ∈ r.frontier, (w.key, w.configuration) ∈ r.store.entries
  told : s.Told r.store r.phase

/-- A run that is closed without a discovery stays sound. -/
theorem Sound.close {r r' : Run C K A E} (h : s.Sound r) (hstore : r'.store = r.store)
    (hforest : r'.forest = r.forest) (hfrontier : r'.frontier = r.frontier)
    (hphase : r'.phase = .closed) : s.Sound r' where
  history := by rw [hstore, hforest]; exact h.history
  frontier := by rw [hstore, hfrontier]; exact h.frontier
  told := by rw [hphase]; trivial

/-- Storing a discovery on the frontier keeps a run sound. -/
theorem Sound.grow {r r' : Run C K A E} {w : Waiting C K} (h : s.Sound r)
    (hhistory : s.History r'.store r'.forest)
    (hstore : r'.store = r.store.push w.key w.configuration)
    (hfrontier : r'.frontier = enqueue s.plan.strategy w r.frontier)
    (htold : s.Told r.store r'.phase) : s.Sound r' where
  history := hhistory
  frontier := by
    intro v hv
    rw [hfrontier, mem_enqueue] at hv
    rw [hstore, Store.mem_entries_push]
    rcases hv with rfl | hv
    · exact Or.inr rfl
    · exact Or.inl (h.frontier v hv)
  told := hstore ▸ htold.push _ _

theorem Sound.known {r counted : Run C K A E} {c : C} {phase : Phase C K A E} (h : s.Sound r)
    (hmeets : Meets r counted c phase) : s.Told r.store phase := by
  have htold := h.told
  cases hmeets with
  | root hp =>
      rw [hp] at htold
      exact ⟨(List.suffix_cons _ _).trans htold.1, htold.2⟩
  | edge hp =>
      rw [hp] at htold
      exact ⟨htold.1, (List.suffix_cons _ _).trans htold.2.1, htold.2.2⟩

theorem Sound.move {r r' : Run C K A E} {o : Option (Signal C K A E)} (h : s.Sound r)
    (hm : s.Move r r' o) : s.Sound r' := by
  cases hm with
  | rest _ => exact h
  | begin _ => exact ⟨h.history, h.frontier, List.suffix_refl _, rfl⟩
  | known hmeets _ _ =>
      have htold := h.known hmeets
      cases hmeets <;> exact ⟨h.history, h.frontier, htold⟩
  | refused hmeets _ => cases hmeets <;> exact h.close rfl rfl rfl rfl
  | overBudget hmeets _ _ _ _ => cases hmeets <;> exact h.close rfl rfl rfl rfl
  | @root c rest fault k hp hk hc _ =>
      have htold := h.told
      rw [hp] at htold
      have hroot : c ∈ s.graph.roots.items := htold.1.subset (List.mem_cons_self ..)
      have hforest : r.forest.contains k = false := (h.history.contains_eq k).trans hc
      refine h.grow (w := ⟨k, c, 0⟩) ?_ (r.store.insert_of_new c hc) rfl (h.known (.root hp))
      change s.History (r.store.insert k c) (r.forest.addRoot k c)
      rw [r.store.insert_of_new c hc, r.forest.addRoot_of_new c hforest]
      exact .root h.history hroot hk hc
  | @child source edge rest fault k forest hp hk hc _ hf =>
      have htold := h.told
      rw [hp] at htold
      have hedge : edge ∈ (s.graph.edges source.configuration).items :=
        htold.2.1.subset (List.mem_cons_self ..)
      obtain ⟨⟨j, hj⟩, rfl⟩ := h.history.record?_of_new hc hf
      have hsource : (some j, source.configuration) ∈ r.store.entries := hj ▸ htold.1
      refine h.grow (w := ⟨k, edge.2, source.depth + 1⟩) ?_ (r.store.insert_of_new _ hc) rfl
        (h.known (.edge hp))
      change s.History (r.store.insert k edge.2) _
      rw [r.store.insert_of_new _ hc, hj]
      exact .child h.history hsource hedge hk hc
  | orphaned _ _ _ _ _ => exact h.close rfl rfl rfl rfl
  | broken _ => exact h.close rfl rfl rfl rfl
  | overTime _ _ _ _ => exact h.close rfl rfl rfl rfl
  | @expand source rest _ hf _ =>
      refine ⟨h.history, fun w hw => h.frontier w (hf ▸ List.mem_cons_of_mem _ hw), ?_⟩
      exact ⟨h.frontier source (hf ▸ List.mem_cons_self ..), List.suffix_refl _, rfl⟩
  | finish _ _ => exact h.close rfl rfl rfl rfl

theorem Sound.stop {r : Run C K A E} (h : s.Sound r) : s.Sound r.stop := by
  refine ⟨h.history, h.frontier, ?_⟩
  unfold Run.stop
  cases r.phase <;> trivial

theorem Session.sound {r : Run C K A E} (h : s.Session r) : s.Sound r :=
  h.invariant (fun _ => ⟨.empty, by simp [Run.initial], trivial⟩) (fun _ _ _ hr hm => hr.move hm)
    (fun _ hr => hr.stop) (fun _ _ hr => ⟨hr.history, hr.frontier, hr.told⟩)

def transient : ValueSearch where
  graph :=
    { title := "Single"
      text := "Single()"
      labelled := false
      roots := { items := [.int 0] }
      edges _ := { items := [] }
      neighbours _ := .ok [] }
  plan := ⟨none, none, .depthFirst, false, .ofInt 1⟩
  identify := StateSpace.identify (some (Expr.stream []).toKey)
  clock := .steady 1

end Search

end StateSpace
