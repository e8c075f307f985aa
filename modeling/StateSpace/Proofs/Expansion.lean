import StateSpace.Proofs.Coverage

/-!
# What is past

A stored configuration waits on the frontier, is the one whose edges are being met, or is past: all
of its edges have been met. Whatever is true of a configuration when a run turns away from it is
true of all that is past, and in the end of all that is stored.
-/

namespace StateSpace.Search

variable {C K A E : Type} {s : Search C K A E} {r r' : Run C K A E}

/-- A stored configuration waits, is the one whose edges are being met, or is past; of what is past
`P` is true. -/
def Past (P : C → Prop) (r : Run C K A E) : Prop :=
  match r.phase with
  | .idle => r.store.entries = []
  | .roots _ _ => ∀ e ∈ r.store.entries, Waits r.frontier e ∨ P e.2
  | .edges source _ _ => ∀ e ∈ r.store.entries,
      Waits r.frontier e ∨ (source.key, source.configuration) = e ∨ P e.2
  | .closed => r.finished = true → ∀ e ∈ r.store.entries, P e.2

namespace Past

variable {P : C → Prop}

/-- Between two sources everything waits or is past. -/
theorem turn (h : Past P r) (ht : Turns r.phase)
    (hP : ∀ source, r.phase = .edges source [] none → P source.configuration) :
    ∀ e ∈ r.store.entries, Waits r.frontier e ∨ P e.2 := by
  unfold Past at h
  generalize r.phase = phase at h ht hP
  cases ht with
  | roots => exact h
  | edges source =>
      intro e he
      rcases h e he with hw | rfl | hp
      · exact Or.inl hw
      · exact Or.inr (hP source rfl)
      · exact Or.inr hp

theorem halt (hr : r.finished = false) (hphase : r'.phase = .closed)
    (hfinished : r'.finished = r.finished) : Past P r' := by
  unfold Past
  rw [hphase]
  intro hf
  rw [hfinished, hr] at hf
  cases hf

variable [DecidableEq K]

/-- What is discovered waits. -/
theorem grow {Q : Key K × C → Prop} {store : Store K C} {frontier : List (Waiting C K)}
    (h : ∀ e ∈ store.entries, Waits frontier e ∨ Q e) (strategy : Strategy) (w : Waiting C K)
    (hnew : store.contains w.key = false) :
    ∀ e ∈ (store.insert w.key w.configuration).entries,
      Waits (enqueue strategy w frontier) e ∨ Q e := by
  rw [store.insert_of_new _ hnew]
  intro e he
  rcases (store.mem_entries_push _ _ e).mp he with he | rfl
  · exact (h e he).imp_left fun hw => hw.enqueue strategy w
  · exact Or.inl ⟨w, mem_enqueue.mpr (Or.inl rfl), rfl⟩

theorem move {o : Option (Signal C K A E)} (h : Past P r) (hcovered : s.Covered r)
    (hP : ∀ source, r.phase = .edges source [] none → P source.configuration)
    (hm : s.Move r r' o) : Past P r' := by
  cases hm with
  | rest _ => exact h
  | begin hp =>
      unfold Past at h
      rw [hp] at h
      intro e he
      change e ∈ r.store.entries at he
      rw [h] at he
      cases he
  | known hmeets _ _ =>
      unfold Past at h
      cases hmeets with
      | root hp =>
          rw [hp] at h
          exact h
      | edge hp =>
          rw [hp] at h
          exact h
  | refused hmeets _ =>
      have hopen := hcovered.unfinished hmeets.phase_ne_closed
      cases hmeets <;> exact halt hopen rfl rfl
  | overBudget hmeets _ _ _ _ =>
      have hopen := hcovered.unfinished hmeets.phase_ne_closed
      cases hmeets <;> exact halt hopen rfl rfl
  | @root c rest fault k hp _ hc _ =>
      unfold Past at h
      rw [hp] at h
      exact grow h s.plan.strategy ⟨k, c, 0⟩ hc
  | @child source edge rest fault k forest hp _ hc _ _ =>
      unfold Past at h
      rw [hp] at h
      exact grow h s.plan.strategy ⟨k, edge.2, source.depth + 1⟩ hc
  | orphaned hp _ _ _ _ => exact halt (hcovered.unfinished (by simp [hp])) rfl rfl
  | broken hb => exact halt (hcovered.unfinished hb.phase_ne_closed) rfl rfl
  | overTime ht _ _ _ => exact halt (hcovered.unfinished ht.phase_ne_closed) rfl rfl
  | @expand source rest ht hf _ =>
      intro e he
      rcases h.turn ht hP e he with ⟨w, hw, rfl⟩ | hp
      · rw [hf] at hw
        rcases List.mem_cons.mp hw with rfl | hw
        · exact Or.inr (Or.inl rfl)
        · exact Or.inl ⟨w, hw, rfl⟩
      · exact Or.inr (Or.inr hp)
  | finish ht hf =>
      intro _ e he
      rcases h.turn ht hP e he with ⟨w, hw, rfl⟩ | hp
      · rw [hf] at hw
        cases hw
      · exact hp

theorem stop (h : Past P r) (hcovered : s.Covered r) : Past P r.stop := by
  cases hp : r.phase with
  | idle | closed =>
      unfold Past at h ⊢
      rw [hp] at h
      simp only [Run.stop, hp]
      exact h
  | roots _ _ | edges _ _ _ =>
      exact halt (hcovered.unfinished (by simp [hp])) (by simp [Run.stop, hp]) rfl

end Past

variable [DecidableEq K]

/-- The edges of all that is past have been told to their end. -/
theorem Session.past (h : s.Session r) : Past (fun c => (s.graph.edges c).fault = none) r := by
  have hall : (s.Sound r ∧ s.Covered r) ∧ Past (fun c => (s.graph.edges c).fault = none) r := by
    refine h.invariant (P := fun r => (s.Sound r ∧ s.Covered r) ∧
      Past (fun c => (s.graph.edges c).fault = none) r) ?_ ?_ ?_ ?_
    · intro start
      exact ⟨⟨(Session.initial start).sound, (Session.initial start).covered⟩, rfl⟩
    · rintro r r' o ⟨⟨hsound, hcovered⟩, hpast⟩ hm
      refine ⟨⟨hsound.move hm, hcovered.move hm⟩, hpast.move hcovered ?_ hm⟩
      intro source hp
      have htold := hsound.told
      rw [hp] at htold
      exact htold.2.2.symm
    · rintro r ⟨⟨hsound, hcovered⟩, hpast⟩
      exact ⟨⟨hsound.stop, hcovered.stop⟩, hpast.stop hcovered⟩
    · rintro r time ⟨⟨hsound, hcovered⟩, hpast⟩
      exact ⟨⟨⟨hsound.history, hsound.frontier, hsound.told⟩, hcovered⟩, hpast⟩
  exact hall.2

theorem Session.fault_eq_none_of_complete (h : s.Session r) (hc : r.complete = true) :
    ∀ c ∈ r.store.toList, (s.graph.edges c).fault = none := by
  have hfinished := finished_of_complete hc
  have hpast := h.past
  unfold Past at hpast
  rw [h.covered.closed hfinished] at hpast
  intro c hmem
  obtain ⟨k, hk⟩ := r.store.mem_toList.mp hmem
  exact hpast hfinished _ hk

end StateSpace.Search
