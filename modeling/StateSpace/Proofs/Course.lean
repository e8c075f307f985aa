import Mathlib.Algebra.BigOperators.Group.List.Basic
import Mathlib.Algebra.GroupWithZero.Nat
import StateSpace.Proofs.Expansion

/-!
# The course of a run

The frontier grows by what is discovered, and it shrinks only when a run takes the first
configuration off to meet its edges. `Course` keeps a list of what has been taken off so far. With
what still waits, that list is a rearrangement of the store: each stored configuration is expanded
once at most. The edges that have been met are those of what was taken off, except for those that
are still pending.
-/

namespace StateSpace

def Waiting.entry {C K : Type} (w : Waiting C K) : Key K × C := (w.key, w.configuration)

namespace Search

variable {C K A E : Type} {s : Search C K A E} {r r' : Run C K A E}

theorem enqueue_perm (strategy : Strategy) (w : Waiting C K) (frontier : List (Waiting C K)) :
    (enqueue strategy w frontier).Perm (w :: frontier) := by
  cases strategy with
  | breadthFirst => exact List.perm_append_singleton w frontier
  | depthFirst => exact .refl _

def countEdges (s : Search C K A E) (configurations : List C) : Nat :=
  (configurations.map fun c => (s.graph.edges c).items.length).sum

theorem countEdges_cons (s : Search C K A E) (c : C) (rest : List C) :
    s.countEdges (c :: rest) = (s.graph.edges c).items.length + s.countEdges rest := by
  simp [countEdges]

def Accounted (s : Search C K A E) (taken : List C) (r : Run C K A E) : Prop :=
  match r.phase with
  | .idle => taken = [] ∧ r.transitions = 0
  | .roots _ _ => taken = [] ∧ r.transitions = 0
  | .edges _ pending _ => r.transitions + pending.length = s.countEdges taken
  | .closed => r.finished = true → r.frontier = [] ∧ r.transitions = s.countEdges taken

namespace Accounted

variable {taken : List C}

theorem turn (h : s.Accounted taken r) (ht : Turns r.phase) :
    r.transitions = s.countEdges taken := by
  unfold Accounted at h
  generalize r.phase = phase at h ht
  cases ht with
  | roots =>
      obtain ⟨rfl, hzero⟩ := h
      exact hzero
  | edges source => exact h

theorem halt (hr : r.finished = false) (hphase : r'.phase = .closed)
    (hfinished : r'.finished = r.finished) : s.Accounted taken r' := by
  unfold Accounted
  rw [hphase]
  intro hf
  rw [hfinished, hr] at hf
  cases hf

theorem expand {source : Waiting C K} {rest : List (Waiting C K)} (h : s.Accounted taken r)
    (ht : Turns r.phase) :
    s.Accounted (source.configuration :: taken) (s.expand (s.look r) source rest) := by
  change r.transitions + _ = s.countEdges _
  rw [h.turn ht, countEdges_cons, Nat.add_comm]

end Accounted

variable [DecidableEq K]

/-- The points of a session, also those between two discoveries, with what has been taken off the
frontier so far, the latest first. -/
inductive Course (s : Search C K A E) : List (Waiting C K) → Run C K A E → Prop where
  | initial (start : Rat) : Course s [] (.initial start)
  | expand {taken : List (Waiting C K)} {r : Run C K A E} {source : Waiting C K}
      {rest : List (Waiting C K)} (h : Course s taken r) (ht : Turns r.phase)
      (hf : r.frontier = source :: rest) (hb : s.outOfTime (s.look r) = none) :
      Course s (source :: taken) (s.expand (s.look r) source rest)
  | keep {taken : List (Waiting C K)} {r r' : Run C K A E} {o : Option (Signal C K A E)}
      (h : Course s taken r) (hm : s.Move r r' o)
      (hkeep : r.frontier.length ≤ r'.frontier.length) : Course s taken r'
  | stop {taken : List (Waiting C K)} {r : Run C K A E} (h : Course s taken r) :
      Course s taken r.stop
  | advance {taken : List (Waiting C K)} {r : Run C K A E} (h : Course s taken r)
      (time : Rat) : Course s taken (r.advance time)

/-- A move leaves store and frontier alone, adds a discovery to both, or takes the first
configuration off the frontier. -/
theorem Move.frontier_cases {o : Option (Signal C K A E)} (h : s.Move r r' o) :
    (r'.frontier = r.frontier ∧ r'.store = r.store) ∨
    (∃ w, r'.frontier = enqueue s.plan.strategy w r.frontier ∧
      r'.store = r.store.push w.key w.configuration) ∨
    ∃ source rest, Turns r.phase ∧ r.frontier = source :: rest ∧
      s.outOfTime (s.look r) = none ∧ r' = s.expand (s.look r) source rest := by
  cases h with
  | known hmeets _ _ | refused hmeets _ | overBudget hmeets _ _ _ _ =>
      cases hmeets <;> exact Or.inl ⟨rfl, rfl⟩
  | @root c rest fault k _ _ hc _ =>
      exact Or.inr (Or.inl ⟨⟨k, c, 0⟩, rfl, r.store.insert_of_new c hc⟩)
  | @child source edge rest fault k forest _ _ hc _ _ =>
      exact Or.inr (Or.inl ⟨⟨k, edge.2, source.depth + 1⟩, rfl, r.store.insert_of_new _ hc⟩)
  | expand ht hf hb => exact Or.inr (Or.inr ⟨_, _, ht, hf, hb, rfl⟩)
  | _ => exact Or.inl ⟨rfl, rfl⟩

namespace Course

variable {taken : List (Waiting C K)}

theorem move {o : Option (Signal C K A E)} (h : s.Course taken r) (hm : s.Move r r' o) :
    ∃ later, s.Course (later ++ taken) r' := by
  rcases hm.frontier_cases with ⟨hf, -⟩ | ⟨w, hf, -⟩ | ⟨source, rest, ht, hf, hb, rfl⟩
  · exact ⟨[], h.keep hm (Nat.le_of_eq (by rw [hf]))⟩
  · have hlength : r'.frontier.length = r.frontier.length + 1 := by
      rw [hf, (enqueue_perm _ w r.frontier).length_eq, List.length_cons]
    exact ⟨[], h.keep hm (by omega)⟩
  · exact ⟨[source], h.expand ht hf hb⟩

theorem leads {signal : Signal C K A E} (h : s.Course taken r) (hl : s.Leads r r' signal) :
    ∃ later, s.Course (later ++ taken) r' := by
  induction hl generalizing taken with
  | last hm => exact h.move hm
  | more hm _ ih =>
      obtain ⟨first, hfirst⟩ := h.move hm
      obtain ⟨later, hlater⟩ := ih hfirst
      exact ⟨later ++ first, by rwa [List.append_assoc]⟩

theorem invariant {P : Run C K A E → Prop} (hinitial : ∀ start, P (.initial start))
    (hmove : ∀ r r' o, P r → s.Move r r' o → P r') (hstop : ∀ r, P r → P r.stop)
    (hadvance : ∀ r time, P r → P (r.advance time)) (h : s.Course taken r) : P r := by
  induction h with
  | initial start => exact hinitial start
  | expand _ ht hf hb ih => exact hmove _ _ _ ih (.expand ht hf hb)
  | keep _ hm _ ih => exact hmove _ _ _ ih hm
  | stop _ ih => exact hstop _ ih
  | advance _ time ih => exact hadvance _ time ih

theorem sound (h : s.Course taken r) : s.Sound r :=
  h.invariant (fun start => (Session.initial start).sound) (fun _ _ _ hr hm => hr.move hm)
    (fun _ hr => hr.stop) (fun _ _ hr => ⟨hr.history, hr.frontier, hr.told⟩)

theorem covered (h : s.Course taken r) : s.Covered r :=
  h.invariant (fun start => (Session.initial start).covered) (fun _ _ _ hr hm => hr.move hm)
    (fun _ hr => hr.stop) (fun _ _ hr => hr)

/-- What was taken off the frontier and what waits there are together what is stored. -/
theorem perm (h : s.Course taken r) :
    ((taken ++ r.frontier).map Waiting.entry).Perm r.store.entries := by
  induction h with
  | initial _ => exact .refl _
  | @expand taken r source rest _ _ hf _ ih =>
      rw [hf] at ih
      exact (List.perm_middle.symm.map _).trans ih
  | @keep taken r r' _ _ hm hkeep ih =>
      rcases hm.frontier_cases with ⟨hf, hs⟩ | ⟨w, hf, hs⟩ | ⟨source, rest, -, hf, -, rfl⟩
      · rwa [hf, hs]
      · have hqueue : (taken ++ r'.frontier).Perm (w :: (taken ++ r.frontier)) := by
          rw [hf]
          exact ((enqueue_perm _ w r.frontier).append_left taken).trans List.perm_middle
        rw [hs]
        exact (hqueue.map _).trans ((ih.cons w.entry).trans (List.perm_append_singleton _ _).symm)
      · -- this is the move that makes the frontier shorter
        change r.frontier.length ≤ rest.length at hkeep
        rw [hf, List.length_cons] at hkeep
        omega
  | stop _ ih => exact ih
  | advance _ _ ih => exact ih

theorem length_le (h : s.Course taken r) : taken.length ≤ r.store.size := by
  have hlength := h.perm.length_eq
  rw [List.length_map, List.length_append] at hlength
  unfold Store.size
  omega

end Course

theorem Session.course (h : s.Session r) : ∃ taken, s.Course taken r := by
  induction h with
  | initial start => exact ⟨[], .initial start⟩
  | next _ ih =>
      obtain ⟨taken, hc⟩ := ih
      obtain ⟨later, hlater⟩ := hc.leads (s.next_leads _)
      exact ⟨_, hlater⟩
  | stop _ ih =>
      obtain ⟨taken, hc⟩ := ih
      exact ⟨taken, hc.stop⟩
  | advance _ time ih =>
      obtain ⟨taken, hc⟩ := ih
      exact ⟨taken, hc.advance time⟩

namespace Accounted

variable {taken : List C}

/-- A move that takes nothing off the frontier meets an edge, or leaves the count alone. -/
theorem keep {o : Option (Signal C K A E)} (h : s.Accounted taken r) (hcovered : s.Covered r)
    (hm : s.Move r r' o) (hkeep : r.frontier.length ≤ r'.frontier.length) :
    s.Accounted taken r' := by
  have hmet : ∀ {source : Waiting C K} {edge : Option A × C} {rest : List (Option A × C)}
      {fault : Option E}, r.phase = .edges source (edge :: rest) fault →
        r.transitions + 1 + rest.length = s.countEdges taken := by
    intro source edge rest fault hp
    unfold Accounted at h
    rw [hp] at h
    rw [← h, List.length_cons]
    omega
  cases hm with
  | rest _ => exact h
  | begin hp =>
      unfold Accounted at h
      rw [hp] at h
      exact h
  | known hmeets _ _ =>
      cases hmeets with
      | root hp =>
          unfold Accounted at h
          rw [hp] at h
          exact h
      | edge hp => exact hmet hp
  | refused hmeets _ | overBudget hmeets _ _ _ _ =>
      have hopen := hcovered.unfinished hmeets.phase_ne_closed
      cases hmeets <;> exact halt hopen rfl rfl
  | root hp _ _ _ =>
      unfold Accounted at h
      rw [hp] at h
      exact h
  | child hp _ _ _ _ => exact hmet hp
  | orphaned hp _ _ _ _ => exact halt (hcovered.unfinished (by simp [hp])) rfl rfl
  | broken hb => exact halt (hcovered.unfinished hb.phase_ne_closed) rfl rfl
  | overTime ht _ _ _ => exact halt (hcovered.unfinished ht.phase_ne_closed) rfl rfl
  | @expand source rest _ hf _ =>
      change r.frontier.length ≤ rest.length at hkeep
      rw [hf, List.length_cons] at hkeep
      omega
  | finish ht hf => exact fun _ => ⟨hf, h.turn ht⟩

theorem stop (h : s.Accounted taken r) (hcovered : s.Covered r) : s.Accounted taken r.stop := by
  cases hp : r.phase with
  | idle | closed =>
      unfold Accounted at h ⊢
      rw [hp] at h
      simp only [Run.stop, hp]
      exact h
  | roots _ _ | edges _ _ _ =>
      exact halt (hcovered.unfinished (by simp [hp])) (by simp [Run.stop, hp]) rfl

end Accounted

theorem Course.accounted {taken : List (Waiting C K)} (h : s.Course taken r) :
    s.Accounted (taken.map (·.configuration)) r := by
  induction h with
  | initial _ => exact ⟨rfl, rfl⟩
  | expand _ ht _ _ ih => exact ih.expand ht
  | keep h hm hkeep ih => exact ih.keep h.covered hm hkeep
  | stop h ih => exact ih.stop h.covered
  | advance _ _ ih => exact ih

/-- A run that has finished has taken off all that it has stored, and met every edge of it. -/
theorem Session.finished_accounts (h : s.Session r) (hf : r.finished = true) :
    r.frontier = [] ∧ r.transitions = s.countEdges r.store.toList := by
  obtain ⟨taken, hcourse⟩ := h.course
  have haccounted := hcourse.accounted
  unfold Accounted at haccounted
  rw [h.covered.closed hf] at haccounted
  obtain ⟨hfrontier, hcount⟩ := haccounted hf
  refine ⟨hfrontier, ?_⟩
  have hperm := hcourse.perm
  rw [hfrontier, List.append_nil] at hperm
  have hlist : (taken.map (·.configuration)).Perm r.store.toList := by
    have hmapped := hperm.map (·.2)
    rwa [List.map_map] at hmapped
  rw [hcount]
  exact (hlist.map _).sum_eq

end Search

end StateSpace
