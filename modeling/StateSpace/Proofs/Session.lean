import StateSpace.Proofs.Move
import StateSpace.Proofs.Store

/-!
# Sessions

In a session a run is asked for its next discovery, is stopped, or waits, in any order and any
number of times. An invariant of a session is what holds at the beginning and is kept by every
move. A discovery adds its configuration to the store, and nothing else does; a run that is
exhausted makes one discovery after the other until it ends.
-/

namespace StateSpace.Search

variable {C K A E : Type} {s : Search C K A E} {r r' : Run C K A E}

theorem exceed_ne_discovered (s : Search C K A E) (r : Run C K A E) (reason : String) (c : C) :
    (s.exceed r reason).2 ≠ .discovered c := by
  unfold exceed
  cases s.plan.raiseOnBudget <;> simp

theorem exceed_ne_fault (s : Search C K A E) (r : Run C K A E) (reason : String) (e : E) :
    (s.exceed r reason).2 ≠ .failed (.fault e) := by
  unfold exceed
  split <;> simp

theorem Meets.store {counted : Run C K A E} {c : C} {phase : Phase C K A E}
    (h : Meets r counted c phase) : counted.store = r.store ∧ counted.forest = r.forest := by
  cases h with
  | root _ => exact ⟨rfl, rfl⟩
  | edge _ => exact ⟨rfl, rfl⟩

variable [DecidableEq K]

theorem Leads.invariant {P : Run C K A E → Prop} {signal : Signal C K A E}
    (hmove : ∀ r r' o, P r → s.Move r r' o → P r') (h : s.Leads r r' signal) (hr : P r) : P r' := by
  induction h with
  | last hm => exact hmove _ _ _ hr hm
  | more hm _ ih => exact ih (hmove _ _ _ hr hm)

/-- The runs that can be had from new ones by asking for discoveries, by stopping and by waiting. -/
inductive Session (s : Search C K A E) : Run C K A E → Prop where
  | initial (start : Rat) : Session s (.initial start)
  | next {r : Run C K A E} (h : Session s r) : Session s (s.next r).1
  | stop {r : Run C K A E} (h : Session s r) : Session s r.stop
  | advance {r : Run C K A E} (h : Session s r) (time : Rat) : Session s (r.advance time)

theorem Session.of_next {signal : Signal C K A E} (hr : s.Session r)
    (h : s.next r = (r', signal)) : s.Session r' := by
  have hnext := hr.next
  rwa [h] at hnext

theorem Session.invariant {P : Run C K A E → Prop} (hinitial : ∀ start, P (.initial start))
    (hmove : ∀ r r' o, P r → s.Move r r' o → P r') (hstop : ∀ r, P r → P r.stop)
    (hadvance : ∀ r time, P r → P (r.advance time)) (h : s.Session r) : P r := by
  induction h with
  | initial start => exact hinitial start
  | next _ ih => exact (s.next_leads _).invariant hmove ih
  | stop _ ih => exact hstop _ ih
  | advance _ time ih => exact hadvance _ time ih

/-- Only a discovery changes the store or the forest. -/
theorem Move.unchanged {o : Option (Signal C K A E)} (h : s.Move r r' o)
    (ho : ∀ c, o ≠ some (.discovered c)) : r'.store = r.store ∧ r'.forest = r.forest := by
  cases h with
  | rest _ => exact ⟨rfl, rfl⟩
  | begin _ => exact ⟨rfl, rfl⟩
  | known hmeets _ _ => exact hmeets.store
  | refused hmeets _ => exact hmeets.store
  | overBudget hmeets _ _ _ _ => exact hmeets.store
  | root _ _ _ _ => exact absurd rfl (ho _)
  | child _ _ _ _ _ => exact absurd rfl (ho _)
  | orphaned _ _ _ _ _ => exact ⟨rfl, rfl⟩
  | broken _ => exact ⟨rfl, rfl⟩
  | overTime _ _ _ _ => exact ⟨rfl, rfl⟩
  | expand _ _ _ => exact ⟨rfl, rfl⟩
  | finish _ _ => exact ⟨rfl, rfl⟩

/-- What is discovered is new, and it is put behind all that is stored. The run stays open. -/
theorem Move.discovers {c : C} (h : s.Move r r' (some (.discovered c))) :
    ∃ k, s.identify c = .ok k ∧ r.store.contains k = false ∧ r'.store = r.store.push k c ∧
      r'.phase ≠ .closed := by
  cases h with
  | overBudget _ _ _ _ hs => exact absurd hs (s.exceed_ne_discovered _ _ c)
  | root _ hk hc _ => exact ⟨_, hk, hc, r.store.insert_of_new c hc, by simp⟩
  | child _ hk hc _ _ => exact ⟨_, hk, hc, r.store.insert_of_new _ hc, by simp⟩
  | overTime _ _ _ hs => exact absurd hs (s.exceed_ne_discovered _ _ c)

theorem Leads.discovers {c : C} (h : s.Leads r r' (.discovered c)) :
    ∃ k, s.identify c = .ok k ∧ r.store.contains k = false ∧ r'.store = r.store.push k c ∧
      r'.phase ≠ .closed := by
  generalize hsig : Signal.discovered c = signal at h
  induction h with
  | last hm =>
      subst hsig
      exact hm.discovers
  | more hm _ ih =>
      obtain ⟨k, hk, hc, hstore, hphase⟩ := ih hsig
      rw [(hm.unchanged (by simp)).1] at hc hstore
      exact ⟨k, hk, hc, hstore, hphase⟩

theorem Leads.unchanged {signal : Signal C K A E} (h : s.Leads r r' signal)
    (hs : ∀ c, signal ≠ .discovered c) : r'.store = r.store ∧ r'.forest = r.forest := by
  induction h with
  | last hm => exact hm.unchanged (by simpa using hs)
  | more hm _ ih =>
      obtain ⟨hstore, hforest⟩ := hm.unchanged (by simp)
      exact ⟨(ih hs).1.trans hstore, (ih hs).2.trans hforest⟩

/-- An open run that is done has finished or has used up its budget. -/
theorem Leads.done (h : s.Leads r r' .done) (hr : r.phase ≠ .closed) :
    r'.finished = true ∨ r'.budgetReason.isSome = true := by
  generalize hsig : Signal.done = signal at h
  induction h with
  | last hm =>
      subst hsig
      cases hm with
      | rest hp => exact absurd hp hr
      | overBudget _ _ _ _ _ => exact Or.inr rfl
      | overTime _ _ _ _ => exact Or.inr rfl
      | finish _ _ => exact Or.inl rfl
  | more hm _ ih =>
      refine ih ?_ hsig
      cases hm with
      | begin _ => exact fun hp => by cases hp
      | known hmeets _ _ => cases hmeets <;> exact fun hp => by cases hp
      | expand _ _ _ => exact fun hp => by cases hp

inductive DiscoversWith (s : Search C K A E) (a : Answers C K A E) :
    Run C K A E → List C → Run C K A E → Prop where
  | nil (r : Run C K A E) : DiscoversWith s a r [] r
  | cons {r r₁ r' : Run C K A E} {c : C} {found : List C}
      (h : s.nextWith a r = (r₁, .discovered c)) (hs : DiscoversWith s a r₁ found r') :
      DiscoversWith s a r (c :: found) r'

abbrev Discovers (s : Search C K A E) : Run C K A E → List C → Run C K A E → Prop :=
  s.DiscoversWith s.answers

namespace Discovers

variable {found : List C}

theorem session (h : s.Discovers r found r') (hr : s.Session r) : s.Session r' := by
  induction h with
  | nil => exact hr
  | cons hn _ ih => exact ih (hr.of_next hn)

/-- What is discovered stands in the store behind what was there before. -/
theorem toList_eq (h : s.Discovers r found r') :
    r'.store.toList = r.store.toList ++ found := by
  induction h with
  | nil => simp
  | @cons r r₁ r' c found hn _ ih =>
      obtain ⟨k, -, -, hstore, -⟩ := (leads_of_next hn).discovers
      rw [ih, hstore, Store.toList_push, List.append_assoc, List.singleton_append]

theorem phase_ne_closed (h : s.Discovers r found r') (hr : r.phase ≠ .closed) :
    r'.phase ≠ .closed := by
  induction h with
  | nil => exact hr
  | @cons r r₁ r' c found hn _ ih =>
      obtain ⟨-, -, -, -, hphase⟩ := (leads_of_next hn).discovers
      exact ih hphase

theorem split {before after : List C} {c : C} (h : s.Discovers r (before ++ c :: after) r') :
    ∃ r₁ r₂, s.Discovers r before r₁ ∧ s.next r₁ = (r₂, .discovered c) ∧
      s.Discovers r₂ after r' := by
  induction before generalizing r with
  | nil =>
      cases h with
      | cons hn hs => exact ⟨r, _, .nil r, hn, hs⟩
  | cons d before ih =>
      cases h with
      | cons hn hs =>
          obtain ⟨r₁, r₂, hbefore, hc, hafter⟩ := ih hs
          exact ⟨r₁, r₂, .cons hn hbefore, hc, hafter⟩

end Discovers

inductive Ends : Signal C K A E → Option (Failure C K A E) → Prop where
  | done : Ends .done none
  | failed (failure : Failure C K A E) : Ends (.failed failure) (some failure)

/-- A run is exhausted by discoveries, fewer than the fuel, after which it ends. -/
theorem exhaustWith_eq_some {a : Answers C K A E} {fuel : Nat}
    {failure : Option (Failure C K A E)} :
    s.exhaustWith a fuel r = some (r', failure) ↔ ∃ found r₁ signal,
      s.DiscoversWith a r found r₁ ∧ found.length < fuel ∧ s.nextWith a r₁ = (r', signal) ∧
        Ends signal failure := by
  induction fuel generalizing r with
  | zero => simp [exhaustWith]
  | succ fuel ih =>
      unfold exhaustWith
      constructor
      · intro h
        cases hn : s.nextWith a r with
        | mk r₁ signal =>
            rw [hn] at h
            cases signal with
            | discovered c =>
                obtain ⟨found, r₂, signal, hd, hlen, hnext, hends⟩ := ih.mp h
                exact ⟨c :: found, r₂, signal, .cons hn hd, by simpa using hlen, hnext, hends⟩
            | done =>
                cases h
                exact ⟨[], r, .done, .nil r, by simp, hn, .done⟩
            | failed failure =>
                cases h
                exact ⟨[], r, .failed failure, .nil r, by simp, hn, .failed failure⟩
      · rintro ⟨found, r₁, signal, hd, hlen, hnext, hends⟩
        cases hd with
        | nil =>
            rw [hnext]
            cases hends <;> rfl
        | cons hn hs =>
            rw [hn]
            exact ih.mpr ⟨_, r₁, signal, hs, by simpa using hlen, hnext, hends⟩

theorem exhaust_eq_some {fuel : Nat} {failure : Option (Failure C K A E)} :
    s.exhaust fuel r = some (r', failure) ↔ ∃ found r₁ signal, s.Discovers r found r₁ ∧
      found.length < fuel ∧ s.next r₁ = (r', signal) ∧ Ends signal failure :=
  exhaustWith_eq_some

theorem Session.exhaust {fuel : Nat} {failure : Option (Failure C K A E)} (hr : s.Session r)
    (h : s.exhaust fuel r = some (r', failure)) : s.Session r' := by
  obtain ⟨found, r₁, signal, hd, -, hn, -⟩ := exhaust_eq_some.mp h
  exact (hd.session hr).of_next hn

end StateSpace.Search
