import StateSpace.Proofs.Discovery

/-!
# Complete runs miss nothing

While a run goes on, each stored configuration waits on the frontier, is the one whose edges are
being met, or has had all of its edges met; what was met is kept in the store. A run that finishes
has nothing waiting, so that the store is closed under the edges of the graph. If configurations
with one key have successors with the same keys, the store then has exactly the keys that can be
reached.
-/

namespace StateSpace.Search

variable {C K A E : Type}

def Alike (s : Search C K A E) (c d : C) : Prop :=
  c = d ∨ ∃ k, s.identify c = .ok (some k) ∧ s.identify d = .ok (some k)

/-- Configurations that are one explored state have the same explored states as successors. -/
def Coherent (s : Search C K A E) : Prop :=
  ∀ c d, s.Alike c d → ∀ e ∈ (s.graph.edges c).items, ∃ e' ∈ (s.graph.edges d).items,
    s.Alike e.2 e'.2

def Waits (frontier : List (Waiting C K)) (e : Key K × C) : Prop :=
  ∃ w ∈ frontier, (w.key, w.configuration) = e

theorem Waits.enqueue {frontier : List (Waiting C K)} {e : Key K × C} (h : Waits frontier e)
    (strategy : Strategy) (w : Waiting C K) : Waits (enqueue strategy w frontier) e := by
  obtain ⟨v, hv, he⟩ := h
  exact ⟨v, mem_enqueue.mpr (Or.inr hv), he⟩

theorem finished_of_complete {r : Run C K A E} (h : r.complete = true) : r.finished = true :=
  (Bool.and_eq_true_iff.mp h).1

variable [DecidableEq K] {s : Search C K A E}

/-- The store has the key of a configuration. A key that cannot be met again is in no store, which
then has the configuration itself. -/
def Kept (s : Search C K A E) (store : Store K C) (c : C) : Prop :=
  ∃ k, s.identify c = .ok k ∧ (store.contains k = true ∨ k = none ∧ (none, c) ∈ store.entries)

/-- All configurations of a list are kept, except for those that are pending behind them. -/
def Met (s : Search C K A E) (store : Store K C) (items pending : List C) : Prop :=
  ∃ met, met ++ pending = items ∧ ∀ c ∈ met, s.Kept store c

def targets (s : Search C K A E) (c : C) : List C := (s.graph.edges c).items.map (·.2)

def Expanded (s : Search C K A E) (store : Store K C) (c : C) : Prop := s.Met store (s.targets c) []

def Covered (s : Search C K A E) (r : Run C K A E) : Prop :=
  match r.phase with
  | .idle => r.finished = false ∧ r.store.entries = []
  | .roots pending _ =>
      r.finished = false ∧ s.Met r.store s.graph.roots.items pending ∧
        ∀ e ∈ r.store.entries, Waits r.frontier e ∨ s.Expanded r.store e.2
  | .edges source pending _ =>
      r.finished = false ∧ s.Met r.store s.graph.roots.items [] ∧
        s.Met r.store (s.targets source.configuration) (pending.map (·.2)) ∧
        ∀ e ∈ r.store.entries, Waits r.frontier e ∨ (source.key, source.configuration) = e ∨
          s.Expanded r.store e.2
  | .closed => r.finished = true →
      s.Met r.store s.graph.roots.items [] ∧ ∀ e ∈ r.store.entries, s.Expanded r.store e.2

theorem Kept.push {store : Store K C} {d : C} (h : s.Kept store d) (k : Key K) (c : C) :
    s.Kept (store.push k c) d := by
  obtain ⟨j, hj, hc | ⟨hnone, hm⟩⟩ := h
  · exact ⟨j, hj, Or.inl (by simp [hc])⟩
  · exact ⟨j, hj, Or.inr ⟨hnone, (store.mem_entries_push k c _).mpr (Or.inl hm)⟩⟩

theorem kept_push_self (store : Store K C) {k : Key K} {c : C} (hk : s.identify c = .ok k) :
    s.Kept (store.push k c) c := by
  cases k with
  | none => exact ⟨none, hk, Or.inr ⟨rfl, (store.mem_entries_push _ _ _).mpr (Or.inr rfl)⟩⟩
  | some a => exact ⟨some a, hk, Or.inl (by simp)⟩

theorem Met.push {store : Store K C} {items pending : List C} (h : s.Met store items pending)
    (k : Key K) (c : C) : s.Met (store.push k c) items pending := by
  obtain ⟨met, hitems, hmet⟩ := h
  exact ⟨met, hitems, fun d hd => (hmet d hd).push k c⟩

theorem Met.next {store : Store K C} {items pending : List C} {c : C}
    (h : s.Met store items (c :: pending)) (hc : s.Kept store c) : s.Met store items pending := by
  obtain ⟨met, hitems, hmet⟩ := h
  refine ⟨met ++ [c], by simp [← hitems], ?_⟩
  intro d hd
  rcases List.mem_append.mp hd with hd | hd
  · exact hmet d hd
  · rw [List.mem_singleton.mp hd]
    exact hc

theorem Met.kept {store : Store K C} {items : List C} {c : C} (h : s.Met store items [])
    (hc : c ∈ items) : s.Kept store c := by
  obtain ⟨met, rfl, hmet⟩ := h
  exact hmet c (by simpa using hc)

theorem met_all (s : Search C K A E) (store : Store K C) (items : List C) :
    s.Met store items items := ⟨[], rfl, by simp⟩

theorem Covered.unfinished {r : Run C K A E} (h : s.Covered r) (hr : r.phase ≠ .closed) :
    r.finished = false := by
  unfold Covered at h
  cases hp : r.phase with
  | closed => exact absurd hp hr
  | idle | roots _ _ | edges _ _ _ =>
      rw [hp] at h
      exact h.1

theorem Covered.closed {r : Run C K A E} (h : s.Covered r) (hf : r.finished = true) :
    r.phase = .closed := by
  by_contra hopen
  rw [h.unfinished hopen] at hf
  cases hf

/-- A run that ends before it has finished has nothing to answer for. -/
theorem Covered.halt {r r' : Run C K A E} (h : s.Covered r) (hr : r.phase ≠ .closed)
    (hphase : r'.phase = .closed) (hfinished : r'.finished = r.finished) : s.Covered r' := by
  unfold Covered
  rw [hphase]
  intro hf
  rw [hfinished, h.unfinished hr] at hf
  cases hf

/-- Between two sources each stored configuration waits or has been expanded. -/
theorem Covered.turn {r : Run C K A E} (h : s.Covered r) (ht : Turns r.phase) :
    s.Met r.store s.graph.roots.items [] ∧
      ∀ e ∈ r.store.entries, Waits r.frontier e ∨ s.Expanded r.store e.2 := by
  unfold Covered at h
  generalize r.phase = phase at h ht
  cases ht with
  | roots => exact h.2
  | edges source =>
      obtain ⟨-, hroots, hsource, hentries⟩ := h
      refine ⟨hroots, fun e he => ?_⟩
      rcases hentries e he with hw | rfl | hx
      · exact Or.inl hw
      · exact Or.inr hsource
      · exact Or.inr hx

theorem Covered.known {r counted : Run C K A E} {c : C} {phase : Phase C K A E} {k : Key K}
    (h : s.Covered r) (hmeets : Meets r counted c phase) (hk : s.identify c = .ok k)
    (hc : r.store.contains k = true) : s.Covered { counted with phase := phase } := by
  have hkept : s.Kept r.store c := ⟨k, hk, Or.inl hc⟩
  unfold Covered at h
  cases hmeets with
  | root hp =>
      rw [hp] at h
      exact ⟨h.1, h.2.1.next hkept, h.2.2⟩
  | edge hp =>
      rw [hp] at h
      exact ⟨h.1, h.2.1, h.2.2.1.next hkept, h.2.2.2⟩

/-- A discovery is kept in the store, and it waits on the frontier. -/
theorem Covered.grow {store : Store K C} {frontier : List (Waiting C K)} {w : Waiting C K}
    {P : Key K × C → Prop} (strategy : Strategy)
    (h : ∀ e ∈ store.entries, Waits frontier e ∨ P e ∨ s.Expanded store e.2) :
    ∀ e ∈ (store.push w.key w.configuration).entries,
      Waits (enqueue strategy w frontier) e ∨ P e ∨
        s.Expanded (store.push w.key w.configuration) e.2 := by
  intro e he
  rcases (store.mem_entries_push _ _ e).mp he with he | rfl
  · rcases h e he with hw | hp | hx
    · exact Or.inl (hw.enqueue strategy w)
    · exact Or.inr (Or.inl hp)
    · exact Or.inr (Or.inr (hx.push _ _))
  · exact Or.inl ⟨w, mem_enqueue.mpr (Or.inl rfl), rfl⟩

theorem Covered.move {r r' : Run C K A E} {o : Option (Signal C K A E)} (h : s.Covered r)
    (hm : s.Move r r' o) : s.Covered r' := by
  cases hm with
  | rest _ => exact h
  | begin hp =>
      unfold Covered at h
      rw [hp] at h
      obtain ⟨hf, hempty⟩ := h
      refine ⟨hf, s.met_all _ _, ?_⟩
      intro e he
      change e ∈ r.store.entries at he
      rw [hempty] at he
      cases he
  | known hmeets hk hc => exact h.known hmeets hk hc
  | refused hmeets _ =>
      have hopen := hmeets.phase_ne_closed
      cases hmeets <;> exact h.halt hopen rfl rfl
  | overBudget hmeets _ _ _ _ =>
      have hopen := hmeets.phase_ne_closed
      cases hmeets <;> exact h.halt hopen rfl rfl
  | @root c rest fault k hp hk hc _ =>
      unfold Covered at h
      rw [hp] at h
      obtain ⟨hf, hroots, hentries⟩ := h
      have hnew : s.Kept (r.store.push k c) c := kept_push_self _ hk
      have hgrow := Covered.grow (w := ⟨k, c, 0⟩) (P := fun _ => False) s.plan.strategy
        (fun e he => (hentries e he).imp_right Or.inr)
      refine ⟨hf, ?_, ?_⟩
      · change s.Met (r.store.insert k c) _ rest
        rw [r.store.insert_of_new c hc]
        exact (hroots.push k c).next hnew
      · change ∀ e ∈ (r.store.insert k c).entries,
          Waits (enqueue s.plan.strategy ⟨k, c, 0⟩ r.frontier) e ∨
            s.Expanded (r.store.insert k c) e.2
        rw [r.store.insert_of_new c hc]
        intro e he
        rcases hgrow e he with hw | hfalse | hx
        · exact Or.inl hw
        · exact hfalse.elim
        · exact Or.inr hx
  | @child source edge rest fault k forest hp hk hc _ _ =>
      unfold Covered at h
      rw [hp] at h
      obtain ⟨hf, hroots, hsource, hentries⟩ := h
      have hnew : s.Kept (r.store.push k edge.2) edge.2 := kept_push_self _ hk
      have hgrow := Covered.grow (w := ⟨k, edge.2, source.depth + 1⟩)
        (P := fun e => (source.key, source.configuration) = e) s.plan.strategy hentries
      unfold Covered
      change r.finished = false ∧ s.Met (r.store.insert k edge.2) _ [] ∧
        s.Met (r.store.insert k edge.2) _ (rest.map (·.2)) ∧
        ∀ e ∈ (r.store.insert k edge.2).entries,
          Waits (enqueue s.plan.strategy ⟨k, edge.2, source.depth + 1⟩ r.frontier) e ∨
            (source.key, source.configuration) = e ∨ s.Expanded (r.store.insert k edge.2) e.2
      rw [r.store.insert_of_new _ hc]
      exact ⟨hf, hroots.push k _, (hsource.push k _).next hnew, hgrow⟩
  | orphaned hp _ _ _ _ => exact h.halt (by simp [hp]) rfl rfl
  | broken hb => exact h.halt hb.phase_ne_closed rfl rfl
  | overTime ht _ _ _ => exact h.halt ht.phase_ne_closed rfl rfl
  | @expand source rest ht hf _ =>
      obtain ⟨hroots, hentries⟩ := h.turn ht
      refine ⟨h.unfinished ht.phase_ne_closed, hroots, s.met_all _ _, ?_⟩
      intro e he
      rcases hentries e he with ⟨w, hw, rfl⟩ | hx
      · rw [hf] at hw
        rcases List.mem_cons.mp hw with rfl | hw
        · exact Or.inr (Or.inl rfl)
        · exact Or.inl ⟨w, hw, rfl⟩
      · exact Or.inr (Or.inr hx)
  | finish ht hf =>
      obtain ⟨hroots, hentries⟩ := h.turn ht
      refine fun _ => ⟨hroots, fun e he => ?_⟩
      rcases hentries e he with ⟨w, hw, rfl⟩ | hx
      · rw [hf] at hw
        cases hw
      · exact hx

theorem Covered.stop {r : Run C K A E} (h : s.Covered r) : s.Covered r.stop := by
  cases hp : r.phase with
  | idle =>
      unfold Covered at h ⊢
      rw [hp] at h
      simp only [Run.stop, hp]
      exact h
  | roots pending fault => exact h.halt (by simp [hp]) (by simp [Run.stop, hp]) rfl
  | edges source pending fault => exact h.halt (by simp [hp]) (by simp [Run.stop, hp]) rfl
  | closed =>
      unfold Covered at h ⊢
      rw [hp] at h
      simp only [Run.stop, hp]
      exact h

theorem Session.covered {r : Run C K A E} (h : s.Session r) : s.Covered r :=
  h.invariant (fun _ => ⟨rfl, rfl⟩) (fun _ _ _ hr hm => hr.move hm) (fun _ hr => hr.stop)
    (fun _ _ hr => hr)

/-- A complete run keeps every root and every successor of what it has stored. -/
theorem Session.kept_of_complete {r : Run C K A E} (h : s.Session r) (hc : r.complete = true) :
    (∀ c ∈ s.graph.roots.items, s.Kept r.store c) ∧
      ∀ c ∈ r.store.toList, ∀ e ∈ (s.graph.edges c).items, s.Kept r.store e.2 := by
  have hfinished := finished_of_complete hc
  have hcovered := h.covered
  have hclosed := hcovered.closed hfinished
  unfold Covered at hcovered
  rw [hclosed] at hcovered
  obtain ⟨hroots, hentries⟩ := hcovered hfinished
  refine ⟨fun c hc => hroots.kept hc, fun c hc e he => ?_⟩
  obtain ⟨k, hk⟩ := r.store.mem_toList.mp hc
  exact (hentries _ hk).kept (List.mem_map.mpr ⟨e, he, rfl⟩)

theorem Kept.alike {store : Store K C} {c d : C} (h : s.Kept store d) (hcd : s.Alike c d) :
    s.Kept store c := by
  rcases hcd with rfl | ⟨k, hc, hd⟩
  · exact h
  · obtain ⟨j, hj, hstored⟩ := h
    have hjk : j = some k := Except.ok.inj (hj.symm.trans hd)
    subst hjk
    rcases hstored with hstored | ⟨hnone, -⟩
    · exact ⟨some k, hc, Or.inl hstored⟩
    · cases hnone

/-- A store that is closed under edges keeps all that can be reached. -/
theorem kept_of_reachable {store : Store K C} {forest : Forest K C A} (hs : s.Coherent)
    (hhistory : s.History store forest) (hroots : ∀ c ∈ s.graph.roots.items, s.Kept store c)
    (hedges : ∀ c ∈ store.toList, ∀ e ∈ (s.graph.edges c).items, s.Kept store e.2)
    {c : C} (h : s.graph.Reachable c) : s.Kept store c := by
  obtain ⟨steps, htrace⟩ := h
  induction htrace with
  | root hc => exact hroots _ hc
  | step _ he ih =>
      obtain ⟨k, hk, hcontains | ⟨-, hmem⟩⟩ := ih
      · -- another configuration stands for the parent, and its successors stand for those here
        obtain ⟨a, d, rfl, hd⟩ := store.contains_iff.mp hcontains
        obtain ⟨e', he', halike⟩ := hs _ d
          (Or.inr ⟨a, hk, hhistory.identify_of_mem hd⟩) _ he
        exact (hedges d (store.mem_toList.mpr ⟨_, hd⟩) e' he').alike halike
      · exact hedges _ (store.mem_toList.mpr ⟨none, hmem⟩) _ he

theorem Kept.contains {store : Store K C} {c : C} {k : K} (h : s.Kept store c)
    (hk : s.identify c = .ok (some k)) : store.contains (some k) = true := by
  obtain ⟨j, hj, hstored⟩ := h
  have hjk : j = some k := Except.ok.inj (hj.symm.trans hk)
  subst hjk
  rcases hstored with hstored | ⟨hnone, -⟩
  · exact hstored
  · cases hnone

/-- A complete exploration stores ends of paths only, and it keeps every root and every successor
of what it has stored. If the keys of successors follow from keys, then a key that can be met
again is in the store exactly if it is the key of something reachable. -/
theorem exhaust_complete (s : Search C K A E) (start : Rat) (fuel : Nat) (r : Run C K A E)
    (h : s.exhaust fuel (.initial start) = some (r, none)) (hc : r.outcome.complete = true) :
    (∀ c ∈ r.outcome.store.toList, ∃ steps, s.graph.Trace steps c) ∧
    (∀ c ∈ s.graph.roots.items, s.Kept r.outcome.store c) ∧
    (∀ c ∈ r.outcome.store.toList, ∀ e ∈ (s.graph.edges c).items, s.Kept r.outcome.store e.2) ∧
    (s.Coherent → ∀ c k, s.identify c = .ok (some k) →
      (r.outcome.store.contains (some k) = true ↔
        ∃ d, s.graph.Reachable d ∧ s.identify d = .ok (some k))) := by
  have hr : s.Session r := (Session.initial start).exhaust h
  obtain ⟨hroots, hedges⟩ := hr.kept_of_complete hc
  refine ⟨?_, hroots, hedges, ?_⟩
  · intro c hmem
    obtain ⟨k, hk⟩ := r.store.mem_toList.mp hmem
    exact hr.sound.history.reachable_of_mem hk
  · intro hs c k _
    constructor
    · intro hcontains
      obtain ⟨a, d, hak, hd⟩ := r.store.contains_iff.mp hcontains
      cases hak
      exact ⟨d, hr.sound.history.reachable_of_mem hd, hr.sound.history.identify_of_mem hd⟩
    · rintro ⟨d, hd, hk⟩
      exact (kept_of_reachable hs hr.sound.history hroots hedges hd).contains hk

def parity : Search Nat Nat Unit Unit where
  graph :=
    { title := "Numbers"
      text := "Numbers()"
      labelled := false
      roots := { items := [0] }
      edges n := { items := [(none, n + 1)] }
      neighbours n := .ok [n + 1] }
  plan := ⟨none, none, .breadthFirst, false, .ofInt 1⟩
  identify n := .ok (some (n % 2))
  clock := .steady 1

theorem parity_coherent : parity.Coherent := by
  intro c d hcd e he
  have hmod : c % 2 = d % 2 := by
    rcases hcd with rfl | ⟨k, hc, hd⟩
    · rfl
    · exact Option.some.inj (Except.ok.inj (hc.trans hd.symm))
  have hec : e = (none, c + 1) := List.mem_singleton.mp he
  subst hec
  refine ⟨(none, d + 1), List.mem_singleton.mpr rfl, Or.inr ⟨(c + 1) % 2, rfl, ?_⟩⟩
  change Except.ok (some ((d + 1) % 2)) = Except.ok (some ((c + 1) % 2))
  rw [show (d + 1) % 2 = (c + 1) % 2 by omega]

/-- Two stored numbers stand for all of them. -/
theorem parity_exhaust_complete :
    ∃ r, parity.exhaust 3 (.initial 0) = some (r, none) ∧ r.outcome.complete = true ∧
      r.outcome.store.toList = [0, 1] ∧
      (r.outcome.store.contains (some 0) = true ↔
        ∃ d, parity.graph.Reachable d ∧ parity.identify d = .ok (some 0)) := by
  have hrun : ∃ r, parity.exhaust 3 (.initial 0) = some (r, none) ∧ r.outcome.complete = true ∧
      r.outcome.store.toList = [0, 1] := ⟨_, rfl, rfl, rfl⟩
  obtain ⟨r, h, hc, hlist⟩ := hrun
  exact ⟨r, h, hc, hlist, (exhaust_complete parity 0 3 r h hc).2.2.2 parity_coherent 6 0 rfl⟩

/-- Under keys that are made anew at each look, a complete exploration does not contain the key of
the root that it has stored. -/
theorem transient_root_not_contained :
    ∃ r, transient.exhaust 2 (.initial 0) = some (r, none) ∧ r.outcome.complete = true ∧
      r.outcome.store.toList = [.int 0] ∧ Value.int 0 ∈ transient.graph.roots.items ∧
      ∃ k, transient.identify (.int 0) = .ok k ∧ r.outcome.store.contains k = false := by
  have hrun : ∃ r, transient.exhaust 2 (.initial 0) = some (r, none) ∧
      r.outcome.complete = true ∧ r.outcome.store.toList = [.int 0] ∧
      ∃ k, transient.identify (.int 0) = .ok k ∧ r.outcome.store.contains k = false :=
    ⟨_, rfl, rfl, rfl, _, rfl, rfl⟩
  obtain ⟨r, h, hc, hlist, hkey⟩ := hrun
  exact ⟨r, h, hc, hlist, List.mem_singleton.mpr rfl, hkey⟩

end StateSpace.Search
