import Mathlib.Order.Nat
import StateSpace.Proofs.Deadlock

/-!
# A breadth-first run works off level after level

In a breadth-first run the frontier is the end of the list of all stored configurations. Their
depths do not decrease along that list and exceed the depth of the current source by one at most,
and the targets of all earlier sources are stored not more than one level below them. Hence what is
stored lies as deep as the shortest path to it is long, and all that can be reached by a shorter
path has been stored before.
-/

namespace StateSpace

namespace Graph

variable {C A E : Type} {g : Graph C A E}

def ReachableIn (g : Graph C A E) (n : Nat) (c : C) : Prop :=
  ∃ steps, g.Trace steps c ∧ steps.length = n + 1

theorem Trace.length_pos {steps : List (Step C A)} {c : C} (h : g.Trace steps c) :
    0 < steps.length := by
  cases h <;> simp

theorem Trace.reachableIn {steps : List (Step C A)} {c : C} (h : g.Trace steps c) :
    g.ReachableIn (steps.length - 1) c := by
  have hpos := h.length_pos
  exact ⟨steps, h, by omega⟩

end Graph

theorem Search.Alike.trans {C K A E : Type} {s : Search C K A E} {b c d : C} (h : s.Alike b c)
    (h' : s.Alike c d) : s.Alike b d := by
  rcases h with rfl | ⟨k, hb, hc⟩
  · exact h'
  · rcases h' with rfl | ⟨j, hc', hd⟩
    · exact Or.inr ⟨k, hb, hc⟩
    · have hjk : j = k := Option.some.inj (Except.ok.inj (hc'.symm.trans hc))
      exact Or.inr ⟨k, hb, hjk ▸ hd⟩

namespace Search

variable {C K A E : Type} {s : Search C K A E} {order : List (Waiting C K)}

def Placed (s : Search C K A E) (order : List (Waiting C K)) (c : C) (n : Nat) : Prop :=
  ∃ w ∈ order, s.Alike c w.configuration ∧ w.depth ≤ n

theorem Placed.mono {order' : List (Waiting C K)} {c : C} {n m : Nat} (h : s.Placed order c n)
    (horder : order ⊆ order') (hn : n ≤ m) : s.Placed order' c m := by
  obtain ⟨w, hw, halike, hdepth⟩ := h
  exact ⟨w, horder hw, halike, hdepth.trans hn⟩

theorem Placed.push {c : C} {n : Nat} (h : s.Placed order c n) (w : Waiting C K) :
    s.Placed (order ++ [w]) c n :=
  h.mono (List.subset_append_left _ _) le_rfl

theorem Placed.alike {c d : C} {n : Nat} (h : s.Placed order d n) (hcd : s.Alike c d) :
    s.Placed order c n := by
  obtain ⟨w, hw, halike, hdepth⟩ := h
  exact ⟨w, hw, hcd.trans halike, hdepth⟩

theorem placed_push_self (order : List (Waiting C K)) (w : Waiting C K) :
    s.Placed (order ++ [w]) w.configuration w.depth :=
  ⟨w, by simp, Or.inl rfl, le_rfl⟩

def PlacedBut (s : Search C K A E) (order : List (Waiting C K)) (n : Nat)
    (items pending : List C) : Prop :=
  ∃ met, met ++ pending = items ∧ ∀ c ∈ met, s.Placed order c n

theorem PlacedBut.push {n : Nat} {items pending : List C} (h : s.PlacedBut order n items pending)
    (w : Waiting C K) : s.PlacedBut (order ++ [w]) n items pending := by
  obtain ⟨met, hitems, hmet⟩ := h
  exact ⟨met, hitems, fun c hc => (hmet c hc).push w⟩

theorem PlacedBut.next {n : Nat} {items pending : List C} {c : C}
    (h : s.PlacedBut order n items (c :: pending)) (hc : s.Placed order c n) :
    s.PlacedBut order n items pending := by
  obtain ⟨met, hitems, hmet⟩ := h
  refine ⟨met ++ [c], by simp [← hitems], ?_⟩
  intro d hd
  rcases List.mem_append.mp hd with hd | hd
  · exact hmet d hd
  · rw [List.mem_singleton.mp hd]
    exact hc

theorem PlacedBut.all {n : Nat} {items : List C} (h : s.PlacedBut order n items []) :
    ∀ c ∈ items, s.Placed order c n := by
  obtain ⟨met, rfl, hmet⟩ := h
  simpa using hmet

/-- Depths do not decrease along the list. If a listed depth is positive, then all roots are placed,
and so are the targets of all that lies two levels or more above it. -/
structure Levelled (s : Search C K A E) (order : List (Waiting C K)) : Prop where
  sorted : order.Pairwise fun v w => v.depth ≤ w.depth
  roots : ∀ w ∈ order, 0 < w.depth → ∀ c ∈ s.graph.roots.items, s.Placed order c 0
  targets : ∀ w ∈ order, ∀ v ∈ order, v.depth + 1 < w.depth →
    ∀ c ∈ s.targets v.configuration, s.Placed order c (v.depth + 1)

theorem Levelled.nil (s : Search C K A E) : s.Levelled [] where
  sorted := .nil
  roots := by simp
  targets := by simp

theorem Levelled.le_of_mem_before (h : s.Levelled order) {before after : List (Waiting C K)}
    {v w : Waiting C K} (horder : order = before ++ w :: after) (hv : v ∈ before) :
    v.depth ≤ w.depth := by
  have hsorted := h.sorted
  rw [horder] at hsorted
  exact (List.pairwise_append.mp hsorted).2.2 v hv w (List.mem_cons_self ..)

theorem Levelled.le_of_mem_behind (h : s.Levelled order) {before after : List (Waiting C K)}
    {v w : Waiting C K} (horder : order = before ++ w :: after) (hv : v ∈ w :: after) :
    w.depth ≤ v.depth := by
  have hsorted := h.sorted
  rw [horder] at hsorted
  rcases List.mem_cons.mp hv with rfl | hv
  · exact le_rfl
  · exact List.rel_of_pairwise_cons (List.pairwise_append.mp hsorted).2.1 hv

theorem Levelled.push (h : s.Levelled order) {w : Waiting C K}
    (hdeep : ∀ v ∈ order, v.depth ≤ w.depth)
    (hroots : 0 < w.depth → ∀ c ∈ s.graph.roots.items, s.Placed order c 0)
    (htargets : ∀ v ∈ order, v.depth + 1 < w.depth →
      ∀ c ∈ s.targets v.configuration, s.Placed order c (v.depth + 1)) :
    s.Levelled (order ++ [w]) where
  sorted := by
    apply List.pairwise_append.mpr
    refine ⟨h.sorted, List.pairwise_singleton _ _, ?_⟩
    intro v hv u hu
    rw [List.mem_singleton.mp hu]
    exact hdeep v hv
  roots := by
    intro v hv hpos c hc
    rcases List.mem_append.mp hv with hv | hv
    · exact (h.roots v hv hpos c hc).push w
    · rw [List.mem_singleton.mp hv] at hpos
      exact (hroots hpos c hc).push w
  targets := by
    intro u hu v hv hlt c hc
    rcases List.mem_append.mp hv with hv | hv
    · rcases List.mem_append.mp hu with hu | hu
      · exact (h.targets u hu v hv hlt c hc).push w
      · rw [List.mem_singleton.mp hu] at hlt
        exact (htargets v hv hlt c hc).push w
    · -- nothing lies below the newest configuration
      have hle : u.depth ≤ w.depth := by
        rcases List.mem_append.mp hu with hu | hu
        · exact hdeep u hu
        · rw [List.mem_singleton.mp hu]
      rw [List.mem_singleton.mp hv] at hlt
      omega

/-- What can be reached by a path shorter than a listed depth is placed as deep as that path. -/
theorem Levelled.placed_of_trace (h : s.Levelled order) (hs : s.Coherent) {w : Waiting C K}
    (hw : w ∈ order) {steps : List (Step C A)} {c : C} (ht : s.graph.Trace steps c)
    (hlen : steps.length ≤ w.depth) : s.Placed order c (steps.length - 1) := by
  induction ht with
  | root hc =>
      have hpos : 0 < w.depth := hlen
      exact h.roots w hw hpos _ hc
  | @step steps p c action ht he ih =>
      have hpos := ht.length_pos
      rw [List.length_append, List.length_singleton] at hlen ⊢
      obtain ⟨v, hv, halike, hdepth⟩ := ih (by omega)
      obtain ⟨e, hedge, hsame⟩ := hs p v.configuration halike _ he
      have htarget : e.2 ∈ s.targets v.configuration := List.mem_map.mpr ⟨e, hedge, rfl⟩
      have hplaced := h.targets w hw v hv (by omega) e.2 htarget
      exact (hplaced.alike hsame).mono (List.Subset.refl _) (by omega)

/-- What lies less deep than a listed configuration is listed before it. -/
theorem Levelled.before (h : s.Levelled order) {before after : List (Waiting C K)}
    {w : Waiting C K} (horder : order = before ++ w :: after) {c : C} {n : Nat}
    (hc : s.Placed order c n) (hn : n < w.depth) : s.Placed before c n := by
  obtain ⟨v, hv, halike, hdepth⟩ := hc
  rw [horder] at hv
  rcases List.mem_append.mp hv with hv | hv
  · exact ⟨v, hv, halike, hdepth⟩
  · have hle := h.le_of_mem_behind horder hv
    omega

/-- No listed configuration lies more than one level below the source. -/
theorem Levelled.depth_le {earlier frontier : List (Waiting C K)} {source : Waiting C K}
    (h : s.Levelled order) (horder : order = earlier ++ source :: frontier)
    (hfrontier : ∀ w ∈ frontier, w.depth ≤ source.depth + 1) :
    ∀ w ∈ order, w.depth ≤ source.depth + 1 := by
  intro w hw
  rw [horder] at hw
  rcases List.mem_append.mp hw with hw | hw
  · have hle := h.le_of_mem_before horder hw
    omega
  · rcases List.mem_cons.mp hw with rfl | hw
    · omega
    · exact hfrontier w hw

def Stage (s : Search C K A E) (order frontier : List (Waiting C K)) : Phase C K A E → Prop
  | .idle => order = [] ∧ frontier = []
  | .roots pending _ => order = frontier ∧ (∀ w ∈ order, w.depth = 0) ∧
      s.PlacedBut order 0 s.graph.roots.items pending
  | .edges source pending _ =>
      (∃ earlier, order = earlier ++ source :: frontier ∧ ∀ w ∈ earlier,
        ∀ c ∈ s.targets w.configuration, s.Placed order c (w.depth + 1)) ∧
      (∀ w ∈ frontier, w.depth ≤ source.depth + 1) ∧
      (∀ c ∈ s.graph.roots.items, s.Placed order c 0) ∧
      s.PlacedBut order (source.depth + 1) (s.targets source.configuration) (pending.map (·.2))
  | .closed => True

/-- Between two sources the frontier begins with the next one. -/
theorem Stage.turn {source : Waiting C K} {rest : List (Waiting C K)} {phase : Phase C K A E}
    (h : s.Stage order (source :: rest) phase) (hlevelled : s.Levelled order)
    (ht : Turns phase) :
    (∃ earlier, order = earlier ++ source :: rest ∧ ∀ w ∈ earlier,
      ∀ c ∈ s.targets w.configuration, s.Placed order c (w.depth + 1)) ∧
    (∀ w ∈ rest, w.depth ≤ source.depth + 1) ∧ ∀ c ∈ s.graph.roots.items, s.Placed order c 0 := by
  cases ht with
  | roots =>
      obtain ⟨horder, hzero, hroots⟩ := h
      refine ⟨⟨[], horder, by simp⟩, ?_, hroots.all⟩
      intro w hw
      have hdepth := hzero w (horder ▸ List.mem_cons_of_mem _ hw)
      omega
  | edges last =>
      obtain ⟨⟨earlier, horder, hearlier⟩, hfrontier, hroots, htargets⟩ := h
      refine ⟨⟨earlier ++ [last], by simp [horder], ?_⟩, ?_, hroots⟩
      · intro w hw
        rcases List.mem_append.mp hw with hw | hw
        · exact hearlier w hw
        · rw [List.mem_singleton.mp hw]
          exact htargets.all
      · intro w hw
        have hnext : last.depth ≤ source.depth := hlevelled.le_of_mem_behind horder (by simp)
        have hdepth := hfrontier w (List.mem_cons_of_mem _ hw)
        omega

variable [DecidableEq K]

structure Recorded (order : List (Waiting C K)) (store : Store K C) (forest : Forest K C A) :
    Prop where
  entries : order.map (fun w => (w.key, w.configuration)) = store.entries
  paths : ∀ w ∈ order, ∀ k, w.key = some k →
    (Forest.path (some k) w.configuration forest.nodes).length = w.depth + 1

theorem Recorded.mem_entries {store : Store K C} {forest : Forest K C A}
    (h : Recorded order store forest) {w : Waiting C K} (hw : w ∈ order) :
    (w.key, w.configuration) ∈ store.entries := by
  rw [← h.entries]
  exact List.mem_map.mpr ⟨w, hw, rfl⟩

theorem Recorded.exists_of_mem {store : Store K C} {forest : Forest K C A}
    (h : Recorded order store forest) {k : Key K} {c : C} (hc : (k, c) ∈ store.entries) :
    ∃ w ∈ order, w.key = k ∧ w.configuration = c := by
  rw [← h.entries] at hc
  obtain ⟨w, hw, heq⟩ := List.mem_map.mp hc
  cases heq
  exact ⟨w, hw, rfl, rfl⟩

theorem Recorded.push {store : Store K C} {forest : Forest K C A}
    (h : Recorded order store forest) {w : Waiting C K} {origin : Origin K C A}
    (hnew : store.contains w.key = false)
    (hpath : ∀ k, w.key = some k →
      (Forest.path (some k) w.configuration (⟨w.key, origin⟩ :: forest.nodes)).length =
        w.depth + 1) :
    Recorded (order ++ [w]) (store.push w.key w.configuration)
      (⟨⟨w.key, origin⟩ :: forest.nodes⟩ : Forest K C A) where
  entries := by simp [Store.push, h.entries]
  paths := by
    intro v hv k hk
    rcases List.mem_append.mp hv with hv | hv
    · have hstored : (some k, v.configuration) ∈ store.entries := hk ▸ h.mem_entries hv
      rw [Forest.path_cons_other v.configuration forest.nodes
        (store.same_eq_false_of_mem hnew hstored)]
      exact h.paths v hv k hk
    · rw [List.mem_singleton.mp hv] at hk ⊢
      exact hpath k hk

theorem Recorded.alike_of_contains {store : Store K C} {forest : Forest K C A}
    (h : Recorded order store forest) (hhistory : s.History store forest) {c : C} {k : Key K}
    (hk : s.identify c = .ok k) (hc : store.contains k = true) :
    ∃ w ∈ order, s.Alike c w.configuration := by
  obtain ⟨a, d, rfl, hd⟩ := store.contains_iff.mp hc
  obtain ⟨w, hw, -, rfl⟩ := h.exists_of_mem hd
  exact ⟨w, hw, Or.inr ⟨a, hk, hhistory.identify_of_mem hd⟩⟩

def Layered (s : Search C K A E) (r : Run C K A E) : Prop :=
  ∃ order, Recorded order r.store r.forest ∧ s.Levelled order ∧ s.Stage order r.frontier r.phase

theorem Layered.close {r r' : Run C K A E} (h : s.Layered r) (hstore : r'.store = r.store)
    (hforest : r'.forest = r.forest) (hphase : r'.phase = .closed) : s.Layered r' := by
  obtain ⟨order, hrecorded, hlevelled, -⟩ := h
  refine ⟨order, ?_, hlevelled, ?_⟩
  · rw [hstore, hforest]
    exact hrecorded
  · rw [hphase]
    trivial

theorem Stage.known {r counted : Run C K A E} {c : C} {phase : Phase C K A E} {k : Key K}
    (h : s.Stage order r.frontier r.phase) (hrecorded : Recorded order r.store r.forest)
    (hlevelled : s.Levelled order) (hhistory : s.History r.store r.forest)
    (hmeets : Meets r counted c phase) (hk : s.identify c = .ok k)
    (hc : r.store.contains k = true) : s.Stage order r.frontier phase := by
  obtain ⟨w, hw, halike⟩ := hrecorded.alike_of_contains hhistory hk hc
  cases hmeets with
  | root hp =>
      rw [hp] at h
      obtain ⟨horder, hzero, hroots⟩ := h
      exact ⟨horder, hzero, hroots.next ⟨w, hw, halike, (hzero w hw).le⟩⟩
  | edge hp =>
      rw [hp] at h
      obtain ⟨⟨earlier, horder, hearlier⟩, hfrontier, hroots, htargets⟩ := h
      have hdepth := hlevelled.depth_le horder hfrontier w hw
      exact ⟨⟨earlier, horder, hearlier⟩, hfrontier, hroots,
        htargets.next ⟨w, hw, halike, hdepth⟩⟩

theorem Layered.root {r : Run C K A E} (h : s.Layered r) {c : C} {rest : List C}
    {fault : Option E} {k : Key K} (hp : r.phase = .roots (c :: rest) fault)
    (hnew : r.store.contains k = false) :
    ∃ order, Recorded order (r.store.push k c) ⟨⟨k, .root c⟩ :: r.forest.nodes⟩ ∧
      s.Levelled order ∧ s.Stage order (r.frontier ++ [⟨k, c, 0⟩]) (.roots rest fault) := by
  obtain ⟨order, hrecorded, hlevelled, hstage⟩ := h
  rw [hp] at hstage
  obtain ⟨horder, hzero, hroots⟩ := hstage
  refine ⟨order ++ [⟨k, c, 0⟩], ?_, ?_, by rw [horder], ?_, ?_⟩
  · apply hrecorded.push (w := ⟨k, c, 0⟩) hnew
    rintro a rfl
    simp [Forest.path]
  · apply hlevelled.push
    · intro v hv
      exact (hzero v hv).le
    · intro hpos
      cases hpos
    · intro v _ hlt
      cases hlt
  · intro w hw
    rcases List.mem_append.mp hw with hw | hw
    · exact hzero w hw
    · rw [List.mem_singleton.mp hw]
  · exact (hroots.push _).next (placed_push_self order ⟨k, c, 0⟩)

theorem Layered.child {r : Run C K A E} (h : s.Layered r) {source : Waiting C K}
    {edge : Option A × C} {rest : List (Option A × C)} {fault : Option E} {k : Key K} {j : K}
    (hp : r.phase = .edges source (edge :: rest) fault) (hj : source.key = some j)
    (hnew : r.store.contains k = false) :
    ∃ order, Recorded order (r.store.push k edge.2)
        ⟨⟨k, .child source.configuration (some j) edge.1⟩ :: r.forest.nodes⟩ ∧
      s.Levelled order ∧
      s.Stage order (r.frontier ++ [⟨k, edge.2, source.depth + 1⟩]) (.edges source rest fault) := by
  obtain ⟨order, hrecorded, hlevelled, hstage⟩ := h
  rw [hp] at hstage
  obtain ⟨⟨earlier, horder, hearlier⟩, hfrontier, hroots, htargets⟩ := hstage
  have hdeep := hlevelled.depth_le horder hfrontier
  have hsource : source ∈ order := by simp [horder]
  refine ⟨order ++ [⟨k, edge.2, source.depth + 1⟩], ?_, ?_, ?_, ?_, ?_, ?_⟩
  · apply hrecorded.push (w := ⟨k, edge.2, source.depth + 1⟩) hnew
    rintro a rfl
    have hparent := hrecorded.paths source hsource j hj
    simp [Forest.path, hparent]
  · apply hlevelled.push hdeep (fun _ => hroots)
    -- what lies two levels above the discovery is an earlier source
    intro v hv hlt
    rw [horder] at hv
    rcases List.mem_append.mp hv with hv | hv
    · exact hearlier v hv
    · have hle := hlevelled.le_of_mem_behind horder hv
      dsimp only at hlt
      omega
  · refine ⟨earlier, by simp [horder], ?_⟩
    intro w hw c hc
    exact (hearlier w hw c hc).push _
  · intro w hw
    rcases List.mem_append.mp hw with hw | hw
    · exact hfrontier w hw
    · rw [List.mem_singleton.mp hw]
  · intro c hc
    exact (hroots c hc).push _
  · exact (htargets.push _).next (placed_push_self order ⟨k, edge.2, source.depth + 1⟩)

theorem Layered.move {r r' : Run C K A E} {o : Option (Signal C K A E)}
    (hbfs : s.plan.strategy = .breadthFirst) (hsound : s.Sound r) (h : s.Layered r)
    (hm : s.Move r r' o) : s.Layered r' := by
  have henqueue : ∀ (w : Waiting C K) (frontier : List (Waiting C K)),
      enqueue s.plan.strategy w frontier = frontier ++ [w] := by
    intro w frontier
    rw [hbfs]
    rfl
  cases hm with
  | rest _ => exact h
  | begin hp =>
      obtain ⟨order, hrecorded, hlevelled, hstage⟩ := h
      rw [hp] at hstage
      obtain ⟨rfl, hfrontier⟩ := hstage
      exact ⟨[], hrecorded, hlevelled, hfrontier.symm, by simp, [], rfl, by simp⟩
  | known hmeets hk hc =>
      obtain ⟨order, hrecorded, hlevelled, hstage⟩ := h
      have hnext := hstage.known hrecorded hlevelled hsound.history hmeets hk hc
      cases hmeets <;> exact ⟨order, hrecorded, hlevelled, hnext⟩
  | refused hmeets _ => cases hmeets <;> exact h.close rfl rfl rfl
  | overBudget hmeets _ _ _ _ => cases hmeets <;> exact h.close rfl rfl rfl
  | @root c rest fault k hp _ hc _ =>
      have hforest : r.forest.contains k = false := (hsound.history.contains_eq k).trans hc
      have hgrown := h.root hp hc
      rw [← r.store.insert_of_new c hc, ← r.forest.addRoot_of_new c hforest, ← henqueue] at hgrown
      exact hgrown
  | @child source edge rest fault k forest hp _ hc _ hf =>
      obtain ⟨⟨j, hj⟩, rfl⟩ := hsound.history.record?_of_new hc hf
      have hgrown := h.child hp hj hc
      rw [← r.store.insert_of_new _ hc, ← henqueue, ← hj] at hgrown
      exact hgrown
  | orphaned _ _ _ _ _ => exact h.close rfl rfl rfl
  | broken _ => exact h.close rfl rfl rfl
  | overTime _ _ _ _ => exact h.close rfl rfl rfl
  | @expand source rest ht hf _ =>
      obtain ⟨order, hrecorded, hlevelled, hstage⟩ := h
      rw [hf] at hstage
      obtain ⟨hearlier, hrest, hroots⟩ := hstage.turn hlevelled ht
      exact ⟨order, hrecorded, hlevelled, hearlier, hrest, hroots, [], rfl, by simp⟩
  | finish _ _ => exact h.close rfl rfl rfl

theorem Layered.stop {r : Run C K A E} (h : s.Layered r) : s.Layered r.stop := by
  obtain ⟨order, hrecorded, hlevelled, hstage⟩ := h
  refine ⟨order, hrecorded, hlevelled, ?_⟩
  unfold Run.stop
  cases hp : r.phase with
  | idle =>
      rw [hp] at hstage
      exact hstage
  | roots _ _ | edges _ _ _ | closed => trivial

theorem Session.layered {r : Run C K A E} (h : s.Session r)
    (hbfs : s.plan.strategy = .breadthFirst) : s.Layered r := by
  have hboth : s.Sound r ∧ s.Layered r := by
    refine h.invariant (P := fun r => s.Sound r ∧ s.Layered r) ?_ ?_ ?_ ?_
    · intro start
      refine ⟨(Session.initial start).sound, [], ⟨rfl, by simp⟩, .nil s, rfl, rfl⟩
    · rintro r r' o ⟨hsound, hlayered⟩ hm
      exact ⟨hsound.move hm, hlayered.move hbfs hsound hm⟩
    · rintro r ⟨hsound, hlayered⟩
      exact ⟨hsound.stop, hlayered.stop⟩
    · rintro r time ⟨hsound, hlayered⟩
      exact ⟨⟨hsound.history, hsound.frontier, hsound.told⟩, hlayered⟩
  exact hboth.2

end Search

end StateSpace
