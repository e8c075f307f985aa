import StateSpace.Proofs.Course
import StateSpace.Proofs.Truncation

/-!
# Explorations end

An exploration ends if some measure of its run falls at each discovery. Under a bound on
configurations that is the room which is left. Where only finitely many keys can be reached it is
the number of those that are not stored yet and, behind it, the number of roots and edges that can
still lead to a configuration whose key is made anew at each look. Such a configuration is never
recorded as a parent, so its own edges need not be counted.
-/

namespace StateSpace

theorem full_of_size_le {limit : Option Bound} {n m : Nat} (h : full limit n = true)
    (hnm : n ≤ m) : full limit m = true := by
  cases limit with
  | none => cases h
  | some bound =>
      have hle : (Quantity.ofInt n).le (.ofInt m) = true := by
        simpa [Quantity.ofInt, Quantity.le, Quantity.lt, denominator] using hnm
      exact Quantity.le_trans (show bound.quantity.le (.ofInt n) = true from h) hle

/-- A bound that is a number leaves no room beside enough configurations. -/
theorem exists_full {limit : Bound} {numerator : Int} {places : Nat}
    (h : limit.quantity = .ratio numerator places) : ∃ n, full (some limit) n = true := by
  refine ⟨numerator.toNat, ?_⟩
  have hpos := denominator_pos places
  have hle : numerator ≤ (numerator.toNat : Int) * denominator places :=
    calc numerator ≤ numerator.toNat := Int.self_le_toNat numerator
      _ = (numerator.toNat : Int) * 1 := (Int.mul_one _).symm
      _ ≤ numerator.toNat * denominator places :=
        Int.mul_le_mul_of_nonneg_left hpos (Int.natCast_nonneg _)
  simpa [full, h, Quantity.ofInt, Quantity.le, Quantity.lt, denominator] using hle

namespace Search

variable {C K A E : Type} {s : Search C K A E} {r r' : Run C K A E}

theorem full_eq_false_of_outOfBudget (h : s.outOfBudget r = none) :
    full s.plan.maxConfigurations r.store.size = false := by
  unfold outOfBudget at h
  cases hlimit : s.plan.maxConfigurations with
  | none => rfl
  | some bound =>
      rw [hlimit] at h
      by_contra hfull
      have hle : bound.quantity.le (.ofInt r.store.size) = true := Bool.of_not_eq_false hfull
      simp [hle] at h

/-- How many discoveries a waiting configuration can lead to. One whose key cannot be met again
leads to none. -/
def prospects (s : Search C K A E) (w : Waiting C K) : Nat :=
  if w.key.isSome then (s.graph.edges w.configuration).items.length else 0

def upcoming (s : Search C K A E) : Phase C K A E → Nat
  | .idle => s.graph.roots.items.length
  | .roots pending _ => pending.length
  | .edges source pending _ => if source.key.isSome then pending.length else 0
  | .closed => 0

def outlook (s : Search C K A E) (r : Run C K A E) : Nat :=
  s.upcoming r.phase + (r.frontier.map s.prospects).sum

theorem Turns.upcoming_eq {phase : Phase C K A E} (h : Turns phase) : s.upcoming phase = 0 := by
  cases h <;> simp [upcoming]

/-- What is put on the frontier under a key that cannot be met again does not count. -/
theorem sum_prospects_enqueue (s : Search C K A E) (strategy : Strategy) {w : Waiting C K}
    (frontier : List (Waiting C K)) (hw : w.key = none) :
    ((enqueue strategy w frontier).map s.prospects).sum = (frontier.map s.prospects).sum := by
  rw [((enqueue_perm strategy w frontier).map s.prospects).sum_eq]
  simp [prospects, hw]

variable [DecidableEq K]

theorem Move.room {c : C} (h : s.Move r r' (some (.discovered c))) :
    full s.plan.maxConfigurations r.store.size = false := by
  cases h with
  | overBudget _ _ _ _ hs => exact absurd hs (s.exceed_ne_discovered _ _ c)
  | root _ _ _ hb => exact full_eq_false_of_outOfBudget (r := s.look r) hb
  | child _ _ _ hb _ => exact full_eq_false_of_outOfBudget (r := s.look r.count) hb
  | overTime _ _ _ hs => exact absurd hs (s.exceed_ne_discovered _ _ c)

theorem Leads.room {c : C} (h : s.Leads r r' (.discovered c)) :
    full s.plan.maxConfigurations r.store.size = false := by
  generalize hsig : Signal.discovered c = signal at h
  induction h with
  | last hm =>
      subst hsig
      exact hm.room
  | more hm _ ih =>
      rw [← (hm.unchanged (by simp)).1]
      exact ih hsig

theorem Move.outlook_le (h : s.Move r r' none) : s.outlook r' ≤ s.outlook r := by
  cases h with
  | begin hp =>
      change s.graph.roots.items.length + (r.frontier.map s.prospects).sum ≤ _
      simp [outlook, upcoming, hp]
  | known hmeets _ _ =>
      cases hmeets with
      | root hp => simp [outlook, upcoming, hp]
      | edge hp =>
          simp only [outlook, upcoming, hp, List.length_cons, Run.count]
          split <;> omega
  | @expand source rest ht hf _ =>
      change s.prospects source + (rest.map s.prospects).sum ≤ _
      simp [outlook, ht.upcoming_eq, hf]

/-- A discovery under a key that cannot be met again uses up a root or an edge of a configuration
whose key can. -/
theorem Move.outlook_lt {c : C} (h : s.Move r r' (some (.discovered c))) (hr : s.Sound r)
    (hc : s.identify c = .ok none) : s.outlook r' < s.outlook r := by
  cases h with
  | overBudget _ _ _ _ hs => exact absurd hs (s.exceed_ne_discovered _ _ c)
  | overTime _ _ _ hs => exact absurd hs (s.exceed_ne_discovered _ _ c)
  | @root _ rest fault k hp hk _ _ =>
      have hnone : k = none := Except.ok.inj (hk.symm.trans hc)
      have hsum := s.sum_prospects_enqueue s.plan.strategy (w := ⟨k, c, 0⟩) r.frontier hnone
      change rest.length + ((enqueue s.plan.strategy ⟨k, c, 0⟩ r.frontier).map s.prospects).sum < _
      rw [hsum]
      simp [outlook, upcoming, hp]
  | @child source edge rest fault k forest hp hk hnew _ hf =>
      have hnone : k = none := Except.ok.inj (hk.symm.trans hc)
      -- the edge counts, since the key of its source can be met again
      obtain ⟨⟨j, hj⟩, -⟩ := hr.history.record?_of_new hnew hf
      have hsum := s.sum_prospects_enqueue s.plan.strategy
        (w := ⟨k, edge.2, source.depth + 1⟩) r.frontier hnone
      change s.upcoming (.edges source rest fault) +
        ((enqueue s.plan.strategy ⟨k, edge.2, source.depth + 1⟩ r.frontier).map s.prospects).sum < _
      rw [hsum]
      simp [outlook, upcoming, hp, hj]

theorem Leads.outlook_lt {c : C} (h : s.Leads r r' (.discovered c)) (hr : s.Sound r)
    (hc : s.identify c = .ok none) : s.outlook r' < s.outlook r := by
  generalize hsig : Signal.discovered c = signal at h
  induction h with
  | last hm =>
      subst hsig
      exact hm.outlook_lt hr hc
  | more hm _ ih => exact (ih (hr.move hm) hsig).trans_le hm.outlook_le

/-- A run whose discoveries lower a measure comes to an end. -/
theorem Session.ends_of_decreasing {α : Type} {below : α → α → Prop} (hwf : WellFounded below)
    (measure : Run C K A E → α)
    (hlower : ∀ r r' c, s.Session r → s.next r = (r', .discovered c) →
      below (measure r') (measure r)) (hr : s.Session r) :
    ∃ n r' failure, ∀ fuel, n ≤ fuel → s.exhaust fuel r = some (r', failure) := by
  generalize hm : measure r = m
  induction m using hwf.induction generalizing r with
  | _ m ih =>
      rcases hn : s.next r with ⟨q, c | _ | failure⟩
      · have hlt := hlower r q c hr hn
        rw [hm] at hlt
        obtain ⟨n, r', failure, hends⟩ := ih _ hlt (hr.of_next hn) rfl
        refine ⟨n + 1, r', failure, fun fuel hfuel => ?_⟩
        obtain ⟨fuel, rfl⟩ : ∃ k, fuel = k + 1 := ⟨fuel - 1, by omega⟩
        simpa only [Search.exhaust, exhaustWith, nextWith_answers, hn] using hends fuel (by omega)
      · exact ⟨1, q, none, fun fuel hfuel => exhaust_of_ends hn .done hfuel⟩
      · exact ⟨1, q, some failure, fun fuel hfuel => exhaust_of_ends hn (.failed failure) hfuel⟩

theorem Session.ends_of_full {n : Nat} (hfull : full s.plan.maxConfigurations n = true)
    (hr : s.Session r) :
    ∃ m r' failure, ∀ fuel, m ≤ fuel → s.exhaust fuel r = some (r', failure) := by
  refine hr.ends_of_decreasing Nat.lt_wfRel.wf (fun r => n - r.store.size) ?_
  intro r r' c _ hn
  have hroom : r.store.size < n := by
    by_contra hge
    have hbusy := full_of_size_le hfull (Nat.le_of_not_lt hge)
    rw [(leads_of_next hn).room] at hbusy
    cases hbusy
  have hgrown := size_of_discovered hn
  change n - r'.store.size < n - r.store.size
  omega

theorem Session.ends_of_finite (hfin : s.reachableKeys.Finite) (hr : s.Session r) :
    ∃ m r' failure, ∀ fuel, m ≤ fuel → s.exhaust fuel r = some (r', failure) := by
  refine hr.ends_of_decreasing (Prod.lex Nat.lt_wfRel Nat.lt_wfRel).wf
    (fun r => (hfin.toFinset.card - (r.store.entries.filterMap (·.1)).length, s.outlook r)) ?_
  intro r r' c hr hn
  obtain ⟨k, hk, -, hstore, -⟩ := (leads_of_next hn).discovers
  rw [hstore]
  cases k with
  | none =>
      have hsame : ((r.store.push none c).entries.filterMap (·.1)).length =
          (r.store.entries.filterMap (·.1)).length := by simp [Store.push]
      rw [hsame]
      exact .right _ ((leads_of_next hn).outlook_lt hr.sound hk)
  | some a =>
      have hmore : ((r.store.push (some a) c).entries.filterMap (·.1)).length =
          (r.store.entries.filterMap (·.1)).length + 1 := by simp [Store.push]
      have hle := (hr.of_next hn).keys_length_le hfin
      rw [hstore] at hle
      refine .left _ _ ?_
      change _ < _
      omega

/-- An exploration ends, and every amount of fuel from some number on shows the same end, if the
configurations are bounded by a number or if finitely many keys can be reached. What is taken off
the frontier in its course is, together with what waits there, a rearrangement of what is stored, so
that no more configurations are expanded than are stored. -/
theorem exhaust_ends (s : Search C K A E) (start : Rat) :
    ((∃ limit numerator places, s.plan.maxConfigurations = some limit ∧
        limit.quantity = .ratio numerator places) ∨ s.reachableKeys.Finite →
      ∃ n r failure taken, (∀ fuel, n ≤ fuel →
        s.exhaust fuel (.initial start) = some (r, failure)) ∧ s.Course taken r) ∧
    ∀ taken r, s.Course taken r →
      ((taken ++ r.frontier).map Waiting.entry).Perm r.store.entries ∧
        taken.length ≤ r.store.size := by
  refine ⟨fun h => ?_, fun taken r h => ⟨h.perm, h.length_le⟩⟩
  have hr : s.Session (.initial start) := .initial start
  obtain ⟨n, r, failure, hends⟩ : ∃ n r failure, ∀ fuel, n ≤ fuel →
      s.exhaust fuel (.initial start) = some (r, failure) := by
    rcases h with ⟨limit, numerator, places, hlimit, hquantity⟩ | hfin
    · obtain ⟨n, hfull⟩ := exists_full hquantity
      exact hr.ends_of_full (hlimit ▸ hfull)
    · exact hr.ends_of_finite hfin
  obtain ⟨taken, hcourse⟩ := (hr.exhaust (hends n le_rfl)).course
  exact ⟨n, r, failure, taken, hends, hcourse⟩

def counting : Search Nat Nat Unit Unit :=
  { parity with
    plan := ⟨some ⟨.ofInt 3, "3"⟩, none, .depthFirst, false, .ofInt 1⟩
    identify := fun n => .ok (some n) }

/-- Every number can be reached, and still both explorations end: one for its bound, the other for
its two keys. -/
theorem counting_exhaust_ends :
    (∀ n, counting.graph.Reachable n ∧ parity.graph.Reachable n) ∧
    (∃ n r failure taken, (∀ fuel, n ≤ fuel →
      counting.exhaust fuel (.initial 0) = some (r, failure)) ∧ counting.Course taken r ∧
        taken.length ≤ r.store.size) ∧
    ∃ n r failure taken, (∀ fuel, n ≤ fuel →
      parity.exhaust fuel (.initial 0) = some (r, failure)) ∧ parity.Course taken r ∧
        taken.length ≤ r.store.size := by
  refine ⟨?_, ?_, ?_⟩
  · intro n
    induction n with
    | zero => exact ⟨.root (List.mem_singleton.mpr rfl), .root (List.mem_singleton.mpr rfl)⟩
    | succ n ih =>
        exact ⟨ih.1.step (e := (none, n + 1)) (List.mem_singleton.mpr rfl),
          ih.2.step (e := (none, n + 1)) (List.mem_singleton.mpr rfl)⟩
  · obtain ⟨hends, hcourses⟩ := exhaust_ends counting 0
    obtain ⟨n, r, failure, taken, hend, hcourse⟩ := hends (Or.inl ⟨_, 3, 0, rfl, rfl⟩)
    exact ⟨n, r, failure, taken, hend, hcourse, (hcourses taken r hcourse).2⟩
  · obtain ⟨hends, hcourses⟩ := exhaust_ends parity 0
    obtain ⟨n, r, failure, taken, hend, hcourse⟩ := hends (Or.inr parity_keys_finite)
    exact ⟨n, r, failure, taken, hend, hcourse, (hcourses taken r hcourse).2⟩

end Search

end StateSpace
