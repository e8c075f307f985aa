import StateSpace.Proofs.Truncation

/-!
# Conclusive verdicts are stable

A verdict other than that the budget was exceeded stays as it is when the bound on configurations is
raised. A check of predicates that is settled under the smaller bound has not been cut before, so
the larger bound leads it to the same discovery or to the same end. Deadlocks are looked for in a
store which the larger bound can only extend, and paths to what was stored do not change.
-/

namespace StateSpace.Search

variable {C K A E : Type} [DecidableEq K] {s : Search C K A E} {r r' : Run C K A E}
variable {limit larger : Option Bound}

theorem Discovers.raise {found : List C} (htime : s.plan.maxSeconds = none)
    (hle : ∀ n, full larger n = true → full limit n = true)
    (h : (s.capped limit).Discovers r found r') : (s.capped larger).Discovers r found r' := by
  induction h with
  | nil r => exact .nil r
  | cons hn _ ih =>
      rcases next_capped_cases htime hle _ with ⟨hsame, -⟩ | ⟨-, q, signal, hcut, hq⟩
      · exact .cons (hsame.symm.trans hn) ih
      · cases hn.symm.trans hcut
        exact absurd rfl (hq.ne_discovered _)

/-- A check that reaches a verdict within its budget takes the same course under a larger bound. -/
theorem checkAll_raise {predicates : List (Predicate C E)} {fuel : Nat} {v : Verdict C A}
    (htime : s.plan.maxSeconds = none) (hle : ∀ n, full larger n = true → full limit n = true)
    (h : (s.capped limit).checkAll predicates fuel r = some (r', .ok v))
    (hv : v.status ≠ .budgetExceeded) :
    (s.capped larger).checkAll predicates fuel r = some (r', .ok v) := by
  obtain ⟨found, r₁, r₂, signal, hd, hlen, hall, hn, hsettle⟩ := checkAll_eq_some.mp h
  have hnext : (s.capped larger).next r₁ = (r₂, signal) := by
    rcases next_capped_cases htime hle r₁ with ⟨hsame, -⟩ | ⟨-, q, signal, hcut, hq⟩
    · exact hsame.symm.trans hn
    · rw [hn] at hcut
      cases hcut
      rcases settle_eq_ok hsettle with ⟨rfl, rfl⟩ | ⟨c, name, rfl, -, -⟩
      · exact absurd (by simp [conclude_eq, Run.outcome, hq.exceeded]) hv
      · exact absurd rfl (hq.ne_discovered c)
  exact checkAll_eq_some.mpr ⟨found, r₁, r₂, signal, hd.raise htime hle, hlen, hall, hnext, hsettle⟩

/-- The exploration under the larger bound goes on where the other one ended. -/
theorem exhaust_raise {start : Rat} {fuel fuel' : Nat} {x x' : Run C K A E}
    (htime : s.plan.maxSeconds = none) (hle : ∀ n, full larger n = true → full limit n = true)
    (hx : (s.capped limit).exhaust fuel (.initial start) = some (x, none))
    (hx' : (s.capped larger).exhaust fuel' (.initial start) = some (x', none)) :
    (∃ after, x'.store.toList = x.store.toList ++ after) ∧ x.forest.Extends x'.forest ∧
      (x.budgetReason = none → x' = x) := by
  obtain ⟨r₁, hd, -, hn, hforest⟩ := discovers_of_exhaust hx
  obtain ⟨r₁', hd', -, hn', hforest'⟩ := discovers_of_exhaust hx'
  have hraised := hd.raise htime hle
  obtain ⟨after, hlist, hafter⟩ := hraised.append_of_ends hd' hn' .done
  refine ⟨⟨after, hlist⟩, ?_, ?_⟩
  · rw [hforest, hforest']
    exact hafter.extends (hraised.session (.initial start))
  · intro hnone
    have hnext : (s.capped larger).next r₁ = (x, .done) := by
      rcases next_capped_cases htime hle r₁ with ⟨hsame, -⟩ | ⟨-, q, signal, hcut, hq⟩
      · exact hsame.symm.trans hn
      · rw [hn] at hcut
        cases hcut
        exact absurd hnone hq.budgetReason_ne
    cases hafter with
    | nil => exact (Prod.mk.inj (hn'.symm.trans hnext)).1
    | cons hc _ => cases hnext.symm.trans hc

theorem checkDeadlockFree_raise {enabled : C → Reply C E A} {start : Rat} {fuel fuel' : Nat}
    {v v' : Verdict C A} (htime : s.plan.maxSeconds = none)
    (hle : ∀ n, full larger n = true → full limit n = true)
    (h : (s.capped limit).checkDeadlockFree enabled fuel (.initial start) = some (r, .ok v))
    (hv : v.status ≠ .budgetExceeded)
    (h' : (s.capped larger).checkDeadlockFree enabled fuel' (.initial start) = some (r', .ok v')) :
    v'.status = v.status ∧ v'.counterexample = v.counterexample := by
  obtain ⟨x, hx, hcases⟩ := checkDeadlockFree_eq_ok h
  obtain ⟨x', hx', -⟩ := checkDeadlockFree_eq_ok h'
  obtain ⟨⟨more, hmore⟩, hforest, hsame⟩ := exhaust_raise htime hle hx hx'
  rcases hcases with ⟨before, c, after, steps, hlist, hbefore, hc, ht, hstatus, hce⟩ |
    ⟨hall, hce, hstatus⟩
  · have hlist' : x'.store.toList = before ++ c :: (after ++ more) := by
      rw [hmore, hlist, List.append_assoc, List.cons_append]
    have hmem : c ∈ x.store.toList := by simp [hlist]
    have ht' : (s.capped larger).traceback x'.forest c = .ok steps :=
      (((Session.initial start).exhaust hx).traceback_eq_of_extends hmem hforest).trans ht
    obtain ⟨q, n, m, t, hcheck⟩ := checkDeadlockFree_stops hx' hlist' hbefore hc
    rw [hcheck, ht'] at h'
    cases h'
    exact ⟨hstatus.symm, hce.symm⟩
  · have hnone : x.budgetReason = none := by
      by_contra hsome
      exact hv (hstatus.trans (by simp [Run.outcome, Option.isSome_iff_ne_none, hsome]))
    rw [hsame hnone] at hx'
    obtain ⟨q, w, hcheck, hce', hstatus'⟩ := checkDeadlockFree_passes hx' hall
    rw [hcheck] at h'
    cases h'
    exact ⟨hstatus'.trans hstatus.symm, hce'.trans hce.symm⟩

/-- Without a limit of time, only the verdict that the budget was exceeded changes when the bound on
configurations is raised: a check of predicates gives the same answer, and a check for deadlocks, if
it gives a verdict at all, one with the same status and the same counterexample. -/
theorem conclusive_stable (s : Search C K A E) (htime : s.plan.maxSeconds = none) (limit : Bound)
    (larger : Option Bound) (hle : ∀ bound ∈ larger, limit.quantity.le bound.quantity = true)
    (start : Rat) (fuel : Nat) :
    (∀ predicates r v,
      (s.capped (some limit)).checkAll predicates fuel (.initial start) = some (r, .ok v) →
        v.status ≠ .budgetExceeded →
        (s.capped larger).checkAll predicates fuel (.initial start) = some (r, .ok v)) ∧
    ∀ enabled r v,
      (s.capped (some limit)).checkDeadlockFree enabled fuel (.initial start) =
          some (r, .ok v) →
        v.status ≠ .budgetExceeded → ∀ fuel' r' v',
        (s.capped larger).checkDeadlockFree enabled fuel' (.initial start) =
            some (r', .ok v') →
          v'.status = v.status ∧ v'.counterexample = v.counterexample := by
  have hlarger : ∀ size, full larger size = true → full (some limit) size = true :=
    fun _ => full_of_le hle
  refine ⟨?_, ?_⟩
  · intro predicates r v h hv
    exact checkAll_raise htime hlarger h hv
  · intro enabled r v h hv fuel' r' v' h'
    exact checkDeadlockFree_raise htime hlarger h hv h'

def isNotTwo : ValuePredicate := ⟨"not two", fun c => .ok (!(c == .int 2))⟩

/-- With room for three configurations the run is cut before the last one, and still both checks
have found what they report without a bound. -/
theorem forked_conclusive_stable :
    (∃ r v, ((forked none).capped (some ⟨.ofInt 3, "3"⟩)).checkAll [isNotTwo] 4 (.initial 0) =
        some (r, .ok v) ∧ v.status = .violated ∧
      ((forked none).capped none).checkAll [isNotTwo] 4 (.initial 0) = some (r, .ok v)) ∧
    ∃ x r v r' v',
      ((forked none).capped (some ⟨.ofInt 3, "3"⟩)).exhaust 4 (.initial 0) = some (x, none) ∧
      x.outcome.budgetExceeded = true ∧
      ((forked none).capped (some ⟨.ofInt 3, "3"⟩)).checkDeadlockFree Relation.forked.enabled 4
        (.initial 0) = some (r, .ok v) ∧ v.status = .deadlock ∧
      ((forked none).capped none).checkDeadlockFree Relation.forked.enabled 5 (.initial 0) =
        some (r', .ok v') ∧ v'.status = v.status ∧ v'.counterexample = v.counterexample := by
  obtain ⟨hcheck, hdeadlock⟩ := conclusive_stable (forked none) rfl ⟨.ofInt 3, "3"⟩ none
    (by simp) 0 4
  refine ⟨?_, ?_⟩
  · have hrun : ∃ r v, ((forked none).capped (some ⟨.ofInt 3, "3"⟩)).checkAll [isNotTwo] 4
        (.initial 0) = some (r, .ok v) ∧ v.status = .violated := ⟨_, _, rfl, rfl⟩
    obtain ⟨r, v, h, hv⟩ := hrun
    exact ⟨r, v, h, hv, hcheck _ r v h (by simp [hv])⟩
  · have hrun : ∃ r v, ((forked none).capped (some ⟨.ofInt 3, "3"⟩)).checkDeadlockFree
        Relation.forked.enabled 4 (.initial 0) = some (r, .ok v) ∧ v.status = .deadlock :=
      ⟨_, _, rfl, rfl⟩
    have hlarger : ∃ r' v', ((forked none).capped none).checkDeadlockFree
        Relation.forked.enabled 5 (.initial 0) = some (r', .ok v') := ⟨_, _, rfl⟩
    obtain ⟨r, v, h, hv⟩ := hrun
    obtain ⟨r', v', h'⟩ := hlarger
    exact ⟨_, r, v, r', v', rfl, rfl, h, hv, h', hdeadlock _ r v h (by simp [hv]) 5 r' v' h'⟩

end StateSpace.Search
