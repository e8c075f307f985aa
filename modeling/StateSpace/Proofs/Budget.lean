import StateSpace.Proofs.Reporting

/-!
# What a run tells of its budget

A run looks at its budget before each discovery and before each configuration that it takes off the
frontier. While it goes on it has room and time, and no reason to end. Where it ends for want of
room, it has as many configurations as the bound allows and has met one more that it does not have;
where it ends for want of time, the clock has passed the limit and does not go back.
-/

namespace StateSpace

def Clock.Forward (clock : Clock) : Prop :=
  ∀ n, 0 ≤ clock.look n ∧ 0 ≤ clock.question n

theorem Clock.forward_steady {tick : Rat} (h : 0 ≤ tick) : (Clock.steady tick).Forward :=
  fun _ => ⟨le_rfl, h⟩

theorem Quantity.below_ratio {a : Int} {p : Nat} {t : Rat} :
    (ratio a p).below t = true ↔ (a : Rat) < t * denominator p := by
  have hden : (0 : Rat) < t.den := by exact_mod_cast t.den_pos
  calc (ratio a p).below t = true ↔ a * t.den < t.num * denominator p := by simp [below]
    _ ↔ (a : Rat) * t.den < t.num * denominator p := by exact_mod_cast Iff.rfl
    _ ↔ a * t.den < t * denominator p * t.den := by
        rw [← Rat.mul_den_eq_num t, mul_right_comm]
    _ ↔ (a : Rat) < t * denominator p := mul_lt_mul_iff_left₀ hden

theorem Quantity.below_mono {q : Quantity} {t u : Rat} (h : q.below t = true) (htu : t ≤ u) :
    q.below u = true := by
  cases q with
  | ratio a p =>
      rw [below_ratio] at h ⊢
      exact h.trans_le (mul_le_mul_of_nonneg_right htu (Nat.cast_nonneg _))
  | negInf => rfl
  | posInf | nan => cases h

namespace Settings

theorem quantity?_of_int? {v : Value} {n : Int} (h : v.int? = some n) :
    v.quantity? = some (.ofInt n) := by
  cases v <;> simp_all [Value.int?, Value.quantity?]

theorem bound_of_int? {v : Value} {n : Int} (h : v.int? = some n) :
    bound v = some ⟨.ofInt n, v.shown⟩ := by
  simp [bound, quantity?_of_int? h]

theorem pos_of_boundProblems {name : String} {v : Value} {n : Int} (hv : v.int? = some n)
    (h : boundProblems name v = .ok []) : 0 < n := by
  by_contra hle
  have hzero : (Quantity.ofInt n).le (.ofInt 0) = true := by
    simpa [Quantity.ofInt, Quantity.le, Quantity.lt, denominator] using hle
  have hnot : notPositive v = .ok true := by
    simp [notPositive, quantity?_of_int? hv, hzero]
  cases v <;> simp_all [boundProblems, Value.int?, bind, Except.bind, pure, Except.pure]

theorem problems_of_plan {settings : Settings} {plan : Plan} (h : settings.plan = .ok plan) :
    settings.problems = .ok [] := by
  unfold Settings.plan check at h
  cases hp : settings.problems with
  | error e => simp [hp, bind, Except.bind] at h
  | ok found =>
      cases found with
      | nil => rfl
      | cons problem rest => simp [hp, bind, Except.bind] at h

theorem boundProblems_of_problems {settings : Settings} (h : settings.problems = .ok []) :
    boundProblems "max_configurations" settings.maxConfigurations = .ok [] := by
  unfold problems at h
  cases hc : boundProblems "max_configurations" settings.maxConfigurations with
  | error e => simp [hc, bind, Except.bind] at h
  | ok found =>
      cases hs : boundProblems "max_seconds" settings.maxSeconds with
      | error e => simp [hc, hs, bind, Except.bind] at h
      | ok later =>
          cases hl : notPositive settings.logEvery with
          | error e => simp [hc, hs, hl, bind, Except.bind] at h
          | ok late =>
              simp only [hc, hs, hl, bind, Except.bind, pure, Except.pure, Except.ok.injEq,
                List.append_eq_nil_iff] at h
              rw [h.1.1.1]

/-- The plan of settings has their bounds. -/
theorem bounds_of_plan {settings : Settings} {plan : Plan} (h : settings.plan = .ok plan) :
    plan.maxConfigurations = bound settings.maxConfigurations ∧
      plan.maxSeconds = bound settings.maxSeconds := by
  have hproblems := problems_of_plan h
  simp only [Settings.plan, check, hproblems, bind, Except.bind, pure, Except.pure,
    Except.ok.injEq] at h
  subst h
  exact ⟨rfl, rfl⟩

end Settings

/-- A run that has finished or used up its budget is complete exactly if it has not used it up. -/
theorem Run.complete_eq_not_exceeded {C K A E : Type} {r : Run C K A E}
    (h : r.finished = true ∨ r.budgetReason.isSome = true) :
    r.outcome.complete = !r.outcome.budgetExceeded := by
  unfold Run.outcome Run.complete
  cases hreason : r.budgetReason <;> simp_all

namespace Search

variable {C K A E : Type} {s : Search C K A E} {r r' : Run C K A E} {reason : String}

def Late (s : Search C K A E) (r : Run C K A E) (reason : String) : Prop :=
  ∃ limit, s.plan.maxSeconds = some limit ∧ reason = "more than " ++ limit.text ++ "s" ∧
    limit.quantity.below r.elapsed = true

theorem late_of_outOfTime (h : s.outOfTime r = some reason) : s.Late r reason := by
  unfold outOfTime at h
  cases hlimit : s.plan.maxSeconds with
  | none => simp [hlimit] at h
  | some limit =>
      rw [hlimit] at h
      dsimp only at h
      split_ifs at h with hlt
      exact ⟨limit, hlimit, (Option.some.inj h).symm, hlt⟩

theorem outOfBudget_eq_some (h : s.outOfBudget r = some reason) :
    (∃ limit, s.plan.maxConfigurations = some limit ∧
      reason = "more than " ++ limit.text ++ " configurations" ∧
      full (some limit) r.store.size = true) ∨ s.outOfTime r = some reason := by
  unfold outOfBudget at h
  cases hlimit : s.plan.maxConfigurations with
  | none => exact Or.inr (by simpa only [hlimit] using h)
  | some limit =>
      rw [hlimit] at h
      dsimp only at h
      split_ifs at h with hfull
      · exact Or.inl ⟨limit, rfl, (Option.some.inj h).symm, hfull⟩
      · exact Or.inr h

/-- A run that ends has been going on for as long as it had when that was decided. -/
theorem elapsed_le_exceed (s : Search C K A E) (hclock : s.clock.Forward)
    (hr : r.stopped = none) (reason : String) :
    r.elapsed ≤ (s.exceed r reason).1.elapsed := by
  have hlook := (hclock r.moments).1
  cases hstarted : r.started with
  | none => simp [Run.elapsed, exceed, look, hstarted]
  | some started =>
      simp only [Run.elapsed, exceed, look, hstarted, hr, Option.getD_none, Option.getD_some]
      exact sub_le_sub_right (le_add_of_nonneg_right hlook) started

def Offers (s : Search C K A E) (store : Store K C) (c : C) : Prop :=
  c ∈ s.graph.roots.items ∨ ∃ p ∈ store.toList, ∃ e ∈ (s.graph.edges p).items, e.2 = c

theorem late_exceed (hclock : s.clock.Forward) (hr : r.stopped = none)
    (h : s.outOfTime r = some reason) : s.Late (s.exceed r reason).1 reason := by
  obtain ⟨limit, hlimit, htext, hlt⟩ := late_of_outOfTime h
  exact ⟨limit, hlimit, htext, Quantity.below_mono hlt (s.elapsed_le_exceed hclock hr reason)⟩

variable [DecidableEq K]

/-- There is no room for one more configuration that is offered, and whose key is not stored. -/
def Crowded (s : Search C K A E) (r : Run C K A E) (reason : String) : Prop :=
  ∃ limit, s.plan.maxConfigurations = some limit ∧
    reason = "more than " ++ limit.text ++ " configurations" ∧
    full (some limit) r.store.size = true ∧
    ∃ c k, s.Offers r.store c ∧ s.identify c = .ok k ∧ r.store.contains k = false

theorem Sound.offers {counted : Run C K A E} {c : C} {phase : Phase C K A E} (h : s.Sound r)
    (hmeets : Meets r counted c phase) : s.Offers r.store c := by
  have htold := h.told
  cases hmeets with
  | root hp =>
      rw [hp] at htold
      exact Or.inl (htold.1.subset (List.mem_cons_self ..))
  | @edge source edge _ _ hp =>
      rw [hp] at htold
      exact Or.inr ⟨source.configuration, r.store.mem_toList.mpr ⟨_, htold.1⟩, edge,
        htold.2.1.subset (List.mem_cons_self ..), rfl⟩

/-- What can be said of the budget of a run that was never stopped from outside. -/
structure Budgeted (s : Search C K A E) (r : Run C K A E) : Prop where
  running : r.phase ≠ .closed → r.stopped = none ∧ r.budgetReason = none
  room : ∀ n < r.store.size, full s.plan.maxConfigurations n = false
  reason : ∀ reason, r.budgetReason = some reason → s.Crowded r reason ∨ s.Late r reason

namespace Budgeted

theorem initial (s : Search C K A E) (start : Rat) : s.Budgeted (.initial start) where
  running _ := ⟨rfl, rfl⟩
  room n hn := absurd hn (Nat.not_lt_zero n)
  reason _ h := by cases h

theorem keep (h : s.Budgeted r) (hr : r.phase ≠ .closed) (hstore : r'.store = r.store)
    (hstopped : r'.phase ≠ .closed → r'.stopped = r.stopped)
    (hreason : r'.budgetReason = r.budgetReason) : s.Budgeted r' where
  running hr' := ⟨(hstopped hr').trans (h.running hr).1, hreason.trans (h.running hr).2⟩
  room := by rw [hstore]; exact h.room
  reason why hwhy := by
    rw [hreason, (h.running hr).2] at hwhy
    cases hwhy

theorem halt (h : s.Budgeted r) (hr : r.phase ≠ .closed) (hstore : r'.store = r.store)
    (hphase : r'.phase = .closed) (hreason : r'.budgetReason = r.budgetReason) : s.Budgeted r' :=
  h.keep hr hstore (fun hopen => absurd hphase hopen) hreason

theorem grow {k : Key K} {c : C} (h : s.Budgeted r) (hr : r.phase ≠ .closed)
    (hstore : r'.store = r.store.push k c) (hstopped : r'.stopped = r.stopped)
    (hreason : r'.budgetReason = r.budgetReason)
    (hroom : full s.plan.maxConfigurations r.store.size = false) : s.Budgeted r' where
  running _ := ⟨hstopped.trans (h.running hr).1, hreason.trans (h.running hr).2⟩
  room n hn := by
    have hsize : r'.store.size = r.store.size + 1 := by simp [hstore, Store.size, Store.push]
    have hle : n ≤ r.store.size := by omega
    by_contra hfull
    rw [full_of_size_le (Bool.of_not_eq_false hfull) hle] at hroom
    cases hroom
  reason why hwhy := by
    rw [hreason, (h.running hr).2] at hwhy
    cases hwhy

theorem exceed (h : s.Budgeted r) (hstore : r'.store = r.store)
    (hwhy : s.Crowded (s.exceed r' reason).1 reason ∨ s.Late (s.exceed r' reason).1 reason) :
    s.Budgeted (s.exceed r' reason).1 where
  running hopen := absurd rfl hopen
  room := by
    change ∀ n < r'.store.size, _
    rw [hstore]
    exact h.room
  reason why heq := by
    cases heq
    exact hwhy

theorem move {o : Option (Signal C K A E)} (h : s.Budgeted r) (hr : s.Sound r)
    (hclock : s.clock.Forward) (hm : s.Move r r' o) : s.Budgeted r' := by
  cases hm with
  | rest _ => exact h
  | begin hp => exact h.keep (by simp [hp]) rfl (fun _ => rfl) rfl
  | known hmeets _ _ =>
      have hopen := hmeets.phase_ne_closed
      cases hmeets <;> exact h.keep hopen rfl (fun _ => rfl) rfl
  | refused hmeets _ =>
      have hopen := hmeets.phase_ne_closed
      cases hmeets <;> exact h.halt hopen rfl rfl rfl
  | @overBudget counted c phase k reason _ hmeets hk hc hb _ =>
      have hopen := hmeets.phase_ne_closed
      have hoffers := hr.offers hmeets
      have hstore := hmeets.store.1
      have hstopped : (s.look counted).stopped = none := by
        cases hmeets <;> exact (h.running hopen).1
      refine h.exceed hstore ?_
      rcases outOfBudget_eq_some hb with ⟨limit, hlimit, htext, hfull⟩ | htime
      · refine Or.inl ⟨limit, hlimit, htext, hfull, c, k, ?_⟩
        change s.Offers counted.store c ∧ _ ∧ counted.store.contains k = false
        rw [hstore]
        exact ⟨hoffers, hk, hc⟩
      · exact Or.inr (late_exceed hclock hstopped htime)
  | @root c rest fault k hp hk hc hb =>
      exact h.grow (by simp [hp]) (r.store.insert_of_new c hc) rfl rfl
        (full_eq_false_of_outOfBudget (r := s.look r) hb)
  | @child source edge rest fault k forest hp hk hc hb hf =>
      exact h.grow (by simp [hp]) (r.store.insert_of_new _ hc) rfl rfl
        (full_eq_false_of_outOfBudget (r := s.look r.count) hb)
  | orphaned hp _ _ _ _ => exact h.halt (by simp [hp]) rfl rfl rfl
  | broken hb => exact h.halt hb.phase_ne_closed rfl rfl rfl
  | overTime ht _ hb _ =>
      exact h.exceed rfl
        (Or.inr (late_exceed hclock (h.running ht.phase_ne_closed).1 hb))
  | expand ht _ _ => exact h.keep ht.phase_ne_closed rfl (fun _ => rfl) rfl
  | finish ht _ => exact h.halt ht.phase_ne_closed rfl rfl rfl

theorem size_le {limit : Bound} {n : Nat} (h : s.Budgeted r)
    (hlimit : s.plan.maxConfigurations = some limit) (hn : limit.quantity = .ofInt n) :
    r.store.size ≤ n := by
  by_contra hlt
  have hroom := h.room n (Nat.lt_of_not_le hlt)
  rw [hlimit, (full_ofInt hn n).mpr (Nat.le_refl n)] at hroom
  cases hroom

end Budgeted

inductive Moment (s : Search C K A E) (start : Rat) : Run C K A E → Prop where
  | initial : Moment s start (.initial start)
  | move {r r' : Run C K A E} {o : Option (Signal C K A E)} (h : Moment s start r)
      (hm : s.Move r r' o) : Moment s start r'

namespace Moment

variable {start : Rat}

theorem leads {signal : Signal C K A E} (h : s.Moment start r) (hl : s.Leads r r' signal) :
    s.Moment start r' :=
  hl.invariant (fun _ _ _ hr hm => hr.move hm) h

theorem exhaust {fuel : Nat} {failure : Option (Failure C K A E)} (h : s.Moment start r)
    (hx : s.exhaust fuel r = some (r', failure)) : s.Moment start r' := by
  obtain ⟨found, q, signal, hd, -, hn, -⟩ := exhaust_eq_some.mp hx
  have hq : s.Moment start q := by
    clear hx hn
    induction hd with
    | nil => exact h
    | cons hc _ ih => exact ih (h.leads (leads_of_next hc))
  exact hq.leads (leads_of_next hn)

theorem budgeted (hclock : s.clock.Forward) (h : s.Moment start r) :
    s.Sound r ∧ s.Budgeted r := by
  induction h with
  | initial => exact ⟨(Session.initial start).sound, .initial s start⟩
  | move _ hm ih => exact ⟨ih.1.move hm, ih.2.move ih.1 hclock hm⟩

end Moment

theorem Move.exhausted {found : Exploration C K A}
    (hm : s.Move r r' (some (.failed (.budget reason found)))) :
    Exhausted r' (.budget reason found) := by
  have hexceed : ∀ (q : Run C K A E) why, (s.exceed q why).2 = .failed (.budget reason found) →
      Exhausted (s.exceed q why).1 (.budget reason found) := by
    intro q why hs
    unfold Search.exceed at hs
    dsimp only at hs
    split_ifs at hs
    cases hs
    exact ⟨_, rfl, rfl⟩
  cases hm with
  | overBudget _ _ _ _ hs => exact hexceed _ _ hs
  | overTime _ _ _ hs => exact hexceed _ _ hs

theorem Leads.exhausted {found : Exploration C K A}
    (h : s.Leads r r' (.failed (.budget reason found))) :
    Exhausted r' (.budget reason found) := by
  generalize hsig : Signal.failed (.budget reason found) = signal at h
  induction h with
  | last hm =>
      subst hsig
      exact hm.exhausted
  | more _ _ ih => exact ih hsig

/-- An exploration under settings that pass their check, with a whole number as bound or none, and
under a clock that does not go back. It never stores more than the bound allows. It is never both
complete and out of budget, and it is one of them if it returns; if it fails for its budget, then
with the outcome that it has. If it is out of budget, then for want of room, with as many
configurations as the bound allows and another key on offer, or for want of time, with the limit
passed. -/
theorem budget_accounted (s : Search C K A E) (settings : Settings)
    (hplan : settings.plan = .ok s.plan)
    (hlimit : settings.maxConfigurations = .null ∨
      ∃ n, settings.maxConfigurations.int? = some n)
    (hclock : s.clock.Forward) (start : Rat) :
    (∀ r, s.Moment start r →
      (∀ n, settings.maxConfigurations.int? = some n → (r.outcome.store.size : Int) ≤ n) ∧
      ¬ (r.outcome.complete = true ∧ r.outcome.budgetExceeded = true)) ∧
    ∀ fuel r failure, s.exhaust fuel (.initial start) = some (r, failure) →
      s.Moment start r ∧
      (failure = none → r.outcome.complete = !r.outcome.budgetExceeded) ∧
      (∀ reason found, failure = some (.budget reason found) →
        found = r.outcome ∧ r.outcome.budgetReason = some reason) ∧
      (r.outcome.budgetExceeded = true →
        (∃ n, settings.maxConfigurations.int? = some n ∧
          r.outcome.budgetReason =
            some ("more than " ++ settings.maxConfigurations.shown ++ " configurations") ∧
          (r.outcome.store.size : Int) = n ∧
          ∃ c k, s.Offers r.outcome.store c ∧ s.identify c = .ok k ∧
            r.outcome.store.contains k = false) ∨
        ∃ limit, settings.maxSeconds.quantity? = some limit ∧
          r.outcome.budgetReason =
            some ("more than " ++ settings.maxSeconds.shown ++ "s") ∧
          limit.below r.outcome.elapsed = true) := by
  obtain ⟨hconfigurations, hseconds⟩ := Settings.bounds_of_plan hplan
  have hbound : ∀ n, settings.maxConfigurations.int? = some n → ∃ m : Nat, n = m ∧
      s.plan.maxConfigurations = some ⟨.ofInt m, settings.maxConfigurations.shown⟩ := by
    intro n hn
    have hpos := Settings.pos_of_boundProblems hn
      (Settings.boundProblems_of_problems (Settings.problems_of_plan hplan))
    obtain ⟨m, rfl⟩ := Int.eq_ofNat_of_zero_le (Int.le_of_lt hpos)
    exact ⟨m, rfl, hconfigurations.trans (Settings.bound_of_int? hn)⟩
  have hsize : ∀ r, s.Moment start r → ∀ n, settings.maxConfigurations.int? = some n →
      (r.store.size : Int) ≤ n := by
    intro r hr n hn
    obtain ⟨m, rfl, hplanned⟩ := hbound n hn
    exact_mod_cast (hr.budgeted hclock).2.size_le hplanned rfl
  refine ⟨fun r hr => ⟨hsize r hr, ?_⟩, fun fuel r failure hx => ?_⟩
  · rintro ⟨hcomplete, hexceeded⟩
    simp_all [Run.outcome, Run.complete]
  · have hr : s.Moment start r := Moment.initial.exhaust hx
    obtain ⟨found, q, signal, hd, -, hn, hends⟩ := exhaust_eq_some.mp hx
    refine ⟨hr, ?_, ?_, ?_⟩
    · rintro rfl
      cases hends
      have hopen : q.phase ≠ .closed := hd.phase_ne_closed (fun hp => by cases hp)
      exact Run.complete_eq_not_exceeded ((leads_of_next hn).done hopen)
    · rintro reason outcome rfl
      cases hends
      obtain ⟨why, hwhy, heq⟩ := (leads_of_next hn).exhausted
      cases heq
      exact ⟨rfl, hwhy⟩
    · intro hexceeded
      obtain ⟨reason, hreason⟩ := Option.isSome_iff_exists.mp hexceeded
      rcases (hr.budgeted hclock).2.reason reason hreason with
        ⟨limit, hplanned, rfl, hfull, hoffer⟩ | ⟨limit, hplanned, rfl, hlt⟩
      · left
        rcases hlimit with hnull | ⟨n, hint⟩
        · rw [hconfigurations, hnull] at hplanned
          cases hplanned
        · obtain ⟨m, rfl, hm⟩ := hbound n hint
          cases hplanned.symm.trans hm
          have hge := (full_ofInt rfl r.store.size).mp hfull
          exact ⟨m, hint, hreason, le_antisymm (hsize r hr m hint) (by exact_mod_cast hge), hoffer⟩
      · right
        rw [hseconds] at hplanned
        obtain ⟨quantity, hquantity, rfl⟩ := Option.map_eq_some_iff.mp hplanned
        exact ⟨quantity, hquantity, hreason, hlt⟩

def hurried : Search Nat Nat Unit Unit :=
  { counting with
    plan := { counting.plan with maxConfigurations := none, maxSeconds := some ⟨.ofInt 1, "1"⟩ }
    clock := .steady (5 / 8) }

/-- One exploration has room for three numbers and meets a fourth, the other has time for one. -/
theorem counting_budget_accounted :
    (∃ r, counting.exhaust 4 (.initial 0) = some (r, none) ∧ r.outcome.budgetExceeded = true ∧
      r.outcome.complete = false ∧
      r.outcome.budgetReason = some "more than 3 configurations" ∧
      (r.outcome.store.size : Int) = 3 ∧
      ∃ c k, counting.Offers r.outcome.store c ∧ counting.identify c = .ok k ∧
        r.outcome.store.contains k = false) ∧
    ∃ r, hurried.exhaust 4 (.initial 0) = some (r, none) ∧ r.outcome.budgetExceeded = true ∧
      r.outcome.store.toList = [0] ∧
      r.outcome.budgetReason = some "more than 1s" ∧
      (Quantity.ofInt 1).below r.outcome.elapsed = true := by
  have hcounted : ∃ r, counting.exhaust 4 (.initial 0) = some (r, none) ∧
      r.outcome.budgetExceeded = true ∧ r.outcome.complete = false ∧
      r.outcome.budgetReason = some "more than 3 configurations" := ⟨_, rfl, rfl, rfl, rfl⟩
  -- sums of rational numbers are computed by the kernel only
  have htimed : ((hurried.exhaust 4 (.initial 0)).map fun (r, failure) =>
      (failure.isNone, r.outcome.store.toList, r.outcome.budgetReason)) =
      some (true, [0], some "more than 1s") := by decide +kernel
  obtain ⟨q, hq, hcrowded, hincomplete, hroom⟩ := hcounted
  obtain ⟨⟨r, failure⟩, hr, heq⟩ := Option.map_eq_some_iff.mp htimed
  simp only [Prod.mk.injEq, Option.isNone_iff_eq_none] at heq
  obtain ⟨rfl, hlist, htime⟩ := heq
  have hlate : r.outcome.budgetExceeded = true := congrArg Option.isSome htime
  have hcounting := budget_accounted counting
    { maxConfigurations := .int 3, strategy := .str "dfs", logEvery := .int 1 } rfl
    (Or.inr ⟨3, rfl⟩) (Clock.forward_steady (by decide)) 0
  have hhurried := budget_accounted hurried
    { maxSeconds := .int 1, strategy := .str "dfs", logEvery := .int 1 } rfl
    (Or.inl rfl) (Clock.forward_steady (by decide +kernel)) 0
  refine ⟨⟨q, hq, hcrowded, hincomplete, hroom, ?_⟩, r, hr, hlate, hlist, htime, ?_⟩
  · rcases (hcounting.2 4 q none hq).2.2.2 hcrowded with ⟨n, hn, -, hsize, hoffer⟩ | ⟨_, hnone, -⟩
    · cases hn
      exact ⟨hsize, hoffer⟩
    · cases hnone
  · rcases (hhurried.2 4 r none hr).2.2.2 hlate with ⟨_, hnone, -⟩ | ⟨limit, hlimit, -, hlt⟩
    · cases hnone
    · cases hlimit
      exact hlt

end Search

end StateSpace
