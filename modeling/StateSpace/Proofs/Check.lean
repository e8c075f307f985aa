import StateSpace.Proofs.Session
import StateSpace.Verify

/-!
# How checks end

A check of predicates makes discoveries at which all of them hold, up to a signal that settles it:
a failure, the end of the run, or a discovery at which a predicate does not hold. A verdict is
violated exactly if the last is the case, and its counterexample is read off the forest at that
moment.
-/

namespace StateSpace

namespace Predicate

variable {C E : Type}

theorem firstFailing_eq_none {c : C} {predicates : List (Predicate C E)} :
    firstFailing c predicates = none ↔ ∀ p ∈ predicates, p.holds c = .ok true := by
  induction predicates with
  | nil => simp [firstFailing]
  | cons p rest ih =>
      unfold firstFailing
      cases hp : p.holds c with
      | error e => simp [hp]
      | ok b =>
          cases b with
          | true => simpa [hp] using ih
          | false => simp [hp]

def failing : Option E → Except E Bool
  | none => .ok false
  | some e => .error e

/-- The first predicate that does not hold is the one behind those that do. -/
theorem firstFailing_eq_some {c : C} {predicates : List (Predicate C E)} {name : String}
    {cause : Option E} :
    firstFailing c predicates = some (name, cause) ↔ ∃ earlier p later,
      predicates = earlier ++ p :: later ∧ (∀ q ∈ earlier, q.holds c = .ok true) ∧
        p.name = name ∧ p.holds c = failing cause := by
  induction predicates with
  | nil => simp [firstFailing]
  | cons p rest ih =>
      unfold firstFailing
      constructor
      · intro h
        cases hp : p.holds c with
        | error e =>
            rw [hp] at h
            cases h
            exact ⟨[], p, rest, rfl, by simp, rfl, hp⟩
        | ok b =>
            rw [hp] at h
            cases b with
            | false =>
                cases h
                exact ⟨[], p, rest, rfl, by simp, rfl, hp⟩
            | true =>
                obtain ⟨earlier, q, later, rfl, hearlier, hname, hq⟩ := ih.mp h
                exact ⟨p :: earlier, q, later, rfl, by simpa [hp] using hearlier, hname, hq⟩
      · rintro ⟨earlier, q, later, hsplit, hearlier, rfl, hq⟩
        cases earlier with
        | nil =>
            cases hsplit
            rw [hq]
            cases cause <;> rfl
        | cons p' earlier =>
            cases hsplit
            rw [hearlier p (by simp)]
            exact ih.mpr
              ⟨earlier, q, later, rfl, fun q' hq' => hearlier q' (by simp [hq']), rfl, hq⟩

end Predicate

namespace Search

variable {C K A E : Type} {r r' : Run C K A E}

/-- The verdict on a run in which nothing was found has the counts and the budget of its outcome. -/
theorem conclude_eq (r : Run C K A E) (property : String) :
    (conclude r property).2 =
      { status := if r.outcome.budgetExceeded then .budgetExceeded else .holds
        property := property
        configurations := r.outcome.store.size
        transitions := r.outcome.transitions
        counterexample := none
        elapsed := r.outcome.elapsed
        budgetReason := r.outcome.budgetReason } := by
  unfold conclude Run.outcome
  cases r.budgetReason <;> rfl

/-- Looking for a deadlock leaves the store and the forest alone. -/
theorem findDeadlock_found (s : Search C K A E) (enabled : C → Reply C E A) (r : Run C K A E)
    (configurations : List C) :
    (s.findDeadlock enabled r configurations).1.store = r.store ∧
      (s.findDeadlock enabled r configurations).1.forest = r.forest ∧
      ∀ c, (s.findDeadlock enabled r configurations).2 = .ok (some c) → c ∈ configurations := by
  induction configurations generalizing r with
  | nil => simp [findDeadlock]
  | cons d rest ih =>
      cases hn : (enabled d).nonempty with
      | error e => simp [findDeadlock, hn, hear]
      | ok b =>
          cases b with
          | true =>
              obtain ⟨hstore, hforest, hmem⟩ := ih (s.hear r (enabled d))
              simp only [findDeadlock, hn]
              exact ⟨hstore, hforest, fun c hc => List.mem_cons_of_mem _ (hmem c hc)⟩
          | false =>
              simp only [findDeadlock, hn, Except.ok.injEq, Option.some.injEq]
              exact ⟨rfl, rfl, fun c hc => hc ▸ List.mem_cons_self ..⟩

variable [DecidableEq K] {s : Search C K A E} {predicates : List (Predicate C E)}

theorem settle_eq_none {signal : Signal C K A E} :
    s.settle predicates r signal = none ↔
      ∃ c, signal = .discovered c ∧ Predicate.firstFailing c predicates = none := by
  cases signal with
  | failed failure => simp [settle]
  | done => simp [settle]
  | discovered c =>
      unfold settle
      cases hp : Predicate.firstFailing c predicates with
      | none => simp [hp]
      | some failing =>
          obtain ⟨name, cause⟩ := failing
          cases cause <;> simp [hp]

/-- A verdict is given at the end of a run or at a discovery that breaks a predicate. -/
theorem settle_eq_ok {signal : Signal C K A E} {v : Verdict C A}
    (h : s.settle predicates r signal = some (r', .ok v)) :
    (signal = .done ∧ v = (conclude r (Predicate.label predicates)).2) ∨
      ∃ c name, signal = .discovered c ∧
        Predicate.firstFailing c predicates = some (name, none) ∧
        s.refute ((s.look r).stop.note [.violated name c]) .violated "invariant" name c =
          .ok v := by
  cases signal with
  | failed failure => cases h
  | done =>
      cases h
      exact Or.inl ⟨rfl, rfl⟩
  | discovered c =>
      unfold settle at h
      cases hp : Predicate.firstFailing c predicates with
      | none => simp [hp] at h
      | some failing =>
          obtain ⟨name, cause⟩ := failing
          cases cause with
          | some e => simp [hp] at h
          | none =>
              simp only [hp, Option.some.injEq, Prod.mk.injEq] at h
              exact Or.inr ⟨c, name, rfl, hp, h.2⟩

/-- A check is settled after discoveries, fewer than the fuel, at which all predicates hold. -/
theorem checkAll_eq_some {fuel : Nat}
    {answer : Run C K A E × Except (Failure C K A E) (Verdict C A)} :
    s.checkAll predicates fuel r = some answer ↔ ∃ found r₁ r₂ signal,
      s.Discovers r found r₁ ∧ found.length < fuel ∧
        (∀ c ∈ found, Predicate.firstFailing c predicates = none) ∧
        s.next r₁ = (r₂, signal) ∧ s.settle predicates r₂ signal = some answer := by
  induction fuel generalizing r with
  | zero => simp [checkAll]
  | succ fuel ih =>
      unfold checkAll
      constructor
      · intro h
        cases hn : s.next r with
        | mk r₂ signal =>
            rw [hn] at h
            dsimp only at h
            cases hs : s.settle predicates r₂ signal with
            | some settled =>
                rw [hs] at h
                exact ⟨[], r, r₂, signal, .nil r, by simp, by simp, hn, hs.trans h⟩
            | none =>
                rw [hs] at h
                obtain ⟨c, rfl, hc⟩ := settle_eq_none.mp hs
                obtain ⟨found, r₃, r₄, signal, hd, hlen, hall, hnext, hend⟩ := ih.mp h
                refine
                  ⟨c :: found, r₃, r₄, signal, .cons hn hd, by simpa using hlen, ?_, hnext, hend⟩
                simpa [hc] using hall
      · rintro ⟨found, r₁, r₂, signal, hd, hlen, hall, hnext, hend⟩
        cases hd with
        | nil => simp only [hnext, hend]
        | @cons _ r₃ _ c found hn hs =>
            have hc : s.settle predicates r₃ (.discovered c) = none :=
              settle_eq_none.mpr ⟨c, rfl, hall c (by simp)⟩
            rw [nextWith_answers] at hn
            simp only [hn, hc]
            exact ih.mpr ⟨found, r₁, r₂, signal, hs, by simpa using hlen,
              fun d hd => hall d (by simp [hd]), hnext, hend⟩

theorem refute_eq_ok {status : Status} {kind property : String} {c : C} {v : Verdict C A}
    (h : s.refute r status kind property c = .ok v) :
    ∃ steps, s.traceback r.forest c = .ok steps ∧ v.status = status ∧ v.property = property ∧
      v.counterexample = some ⟨kind, property, c, steps⟩ := by
  unfold refute at h
  cases ht : s.traceback r.forest c with
  | error e => simp [ht, Except.map] at h
  | ok steps =>
      rw [ht] at h
      have hv := Except.ok.inj h
      subst hv
      exact ⟨steps, rfl, rfl, rfl, rfl⟩

/-- A counterexample to deadlock freedom is read off an exhausted run. -/
theorem checkDeadlockFree_counterexample {enabled : C → Reply C E A} {fuel : Nat}
    {v : Verdict C A} {ce : Counterexample C A}
    (h : s.checkDeadlockFree enabled fuel r = some (r', .ok v)) (hce : v.counterexample = some ce) :
    ∃ r₁, s.exhaust fuel r = some (r₁, none) ∧ ce.configuration ∈ r₁.store.toList ∧
      s.traceback r₁.forest ce.configuration = .ok ce.steps := by
  unfold checkDeadlockFree at h
  cases he : s.exhaust fuel r with
  | none => simp [he] at h
  | some exhausted =>
      obtain ⟨r₁, failure⟩ := exhausted
      cases failure with
      | some failure => simp [he] at h
      | none =>
          obtain ⟨-, hforest, hmem⟩ := s.findDeadlock_found enabled r₁ r₁.store.toList
          simp only [he] at h
          cases hd : s.findDeadlock enabled r₁ r₁.store.toList with
          | mk r₂ found =>
              rw [hd] at h hforest hmem
              cases found with
              | error e => simp at h
              | ok deadlock =>
                  cases deadlock with
                  | none =>
                      simp only [Option.some.injEq, Prod.mk.injEq, Except.ok.injEq] at h
                      rw [← h.2, conclude_eq] at hce
                      cases hce
                  | some c =>
                      simp only [Option.some.injEq, Prod.mk.injEq] at h
                      obtain ⟨steps, ht, -, -, hv⟩ := refute_eq_ok h.2
                      have hfr : r₂.forest = r₁.forest := hforest
                      rw [hv] at hce
                      cases hce
                      exact ⟨r₁, rfl, hmem c rfl, hfr ▸ ht⟩

end Search

end StateSpace
