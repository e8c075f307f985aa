import StateSpace.Proofs.Coverage

/-!
# Calls on a run

From outside a run is driven by calls: for the next configuration, for all that are left, to stop,
or for the outcome so far. `Plays` tells what a series of calls yields. A run that has begun and is
then stopped yields nothing more, and it stays as complete as it was. A run that has not begun is
not closed by a stop: the first call for a configuration begins it all the same.
-/

namespace StateSpace

inductive Call where
  | next
  | exhaust
  | stop
  | result
deriving DecidableEq

structure Yield (C : Type) where
  configuration : C
  root : Bool
  depth : Nat

variable {C K A E : Type}

def Phase.meetsRoots : Phase C K A E → Bool
  | .roots _ _ => true
  | _ => false

def Phase.level : Phase C K A E → Nat
  | .edges source _ _ => source.depth + 1
  | _ => 0

def Signal.yields (phase : Phase C K A E) : Signal C K A E → List (Yield C)
  | .discovered c => [⟨c, phase.meetsRoots, phase.level⟩]
  | _ => []

theorem Signal.yields_of_ends {phase : Phase C K A E} {signal : Signal C K A E}
    {failure : Option (Failure C K A E)} (h : Search.Ends signal failure) :
    signal.yields phase = [] := by
  cases h <;> rfl

namespace Run

@[simp]
theorem stop_stop (r : Run C K A E) : r.stop.stop = r.stop := by
  unfold stop
  cases r.phase <;> rfl

theorem stop_phase_of_begun {r : Run C K A E} (h : r.phase ≠ .idle) : r.stop.phase = .closed := by
  unfold stop
  cases hp : r.phase with
  | idle => exact absurd hp h
  | roots _ _ | edges _ _ _ | closed => rfl

end Run

namespace Search

variable [DecidableEq K] {s : Search C K A E} {a : Answers C K A E} {r r' : Run C K A E}

def yieldsWith (s : Search C K A E) (a : Answers C K A E) : Nat → Run C K A E → List (Yield C)
  | 0, _ => []
  | n + 1, r =>
    match s.nextWith a r with
    | (r, .discovered c) => ⟨c, r.phase.meetsRoots, r.phase.level⟩ :: yieldsWith s a n r
    | _ => []

abbrev yields (s : Search C K A E) : Nat → Run C K A E → List (Yield C) := s.yieldsWith s.answers

/-- How a run serves a call, with what it yields. It may fail in doing so; a call that exhausts the
run is served only if the run ends. -/
inductive ServesWith (s : Search C K A E) (a : Answers C K A E) (r : Run C K A E) :
    Call → List (Yield C) → Run C K A E → Prop where
  | next : ServesWith s a r .next ((s.nextWith a r).2.yields (s.nextWith a r).1.phase)
      (s.nextWith a r).1
  | exhaust {fuel : Nat} {r' : Run C K A E} {failure : Option (Failure C K A E)}
      (h : s.exhaustWith a fuel r = some (r', failure)) :
      ServesWith s a r .exhaust (s.yieldsWith a fuel r) r'
  | stop : ServesWith s a r .stop [] r.stop
  | result : ServesWith s a r .result [] r

inductive PlaysWith (s : Search C K A E) (a : Answers C K A E) :
    Run C K A E → List Call → List (Yield C) → Run C K A E → Prop where
  | nil (r : Run C K A E) : PlaysWith s a r [] [] r
  | cons {r r₁ r' : Run C K A E} {call : Call} {calls : List Call} {found later : List (Yield C)}
      (h : s.ServesWith a r call found r₁) (hs : PlaysWith s a r₁ calls later r') :
      PlaysWith s a r (call :: calls) (found ++ later) r'

abbrev Plays (s : Search C K A E) :
    Run C K A E → List Call → List (Yield C) → Run C K A E → Prop :=
  s.PlaysWith s.answers

theorem exhaust_of_next_ends {fuel : Nat} {signal : Signal C K A E}
    {failure failure' : Option (Failure C K A E)} {q : Run C K A E}
    (hn : s.nextWith a r = (q, signal)) (hends : Ends signal failure)
    (h : s.exhaustWith a fuel r = some (r', failure')) :
    r' = q ∧ s.yieldsWith a fuel r = [] := by
  cases fuel with
  | zero => cases h
  | succ fuel =>
      cases hends with
      | done | failed failure =>
          simp only [exhaustWith, hn, Option.some.injEq, Prod.mk.injEq] at h
          simp only [yieldsWith, hn]
          exact ⟨h.1.symm, trivial⟩

/-- What is kept by each call for a configuration, together with what it yields, is kept by a call
that exhausts the run. -/
theorem exhaust_invariant {P : List (Yield C) → Run C K A E → Prop}
    (hnext : ∀ found r, P found r →
      P (found ++ (s.nextWith a r).2.yields (s.nextWith a r).1.phase) (s.nextWith a r).1)
    {fuel : Nat} {found : List (Yield C)} {failure : Option (Failure C K A E)}
    (hr : P found r) (h : s.exhaustWith a fuel r = some (r', failure)) :
    P (found ++ s.yieldsWith a fuel r) r' := by
  induction fuel generalizing found r with
  | zero => cases h
  | succ fuel ih =>
      have hstep := hnext found r hr
      rcases hn : s.nextWith a r with ⟨q, c | _ | cause⟩ <;> rw [hn] at hstep
      · simp only [exhaustWith, hn] at h
        have hlater := ih hstep h
        simpa only [yieldsWith, hn, Signal.yields, List.append_assoc, List.singleton_append]
          using hlater
      · obtain ⟨rfl, hnone⟩ := exhaust_of_next_ends hn .done h
        rwa [hnone]
      · obtain ⟨rfl, hnone⟩ := exhaust_of_next_ends hn (.failed cause) h
        rwa [hnone]

theorem PlaysWith.invariant {P : List (Yield C) → Run C K A E → Prop} {calls : List Call}
    {later : List (Yield C)} (found : List (Yield C))
    (hnext : ∀ found r, P found r →
      P (found ++ (s.nextWith a r).2.yields (s.nextWith a r).1.phase) (s.nextWith a r).1)
    (hstop : ∀ found r, P found r → P found r.stop) (h : s.PlaysWith a r calls later r')
    (hr : P found r) : P (found ++ later) r' := by
  induction h generalizing found with
  | nil r => rwa [List.append_nil]
  | cons hserves _ ih =>
      rw [← List.append_assoc]
      apply ih
      cases hserves with
      | next => exact hnext found _ hr
      | exhaust hx => exact exhaust_invariant hnext hr hx
      | stop => exact (List.append_nil found).symm ▸ hstop found _ hr
      | result => rwa [List.append_nil]

theorem PlaysWith.append {r₁ : Run C K A E} {calls later : List Call}
    {found more : List (Yield C)} (h : s.PlaysWith a r calls found r₁)
    (hlater : s.PlaysWith a r₁ later more r') :
    s.PlaysWith a r (calls ++ later) (found ++ more) r' := by
  induction h with
  | nil r => exact hlater
  | cons hserves _ ih =>
      rw [List.append_assoc]
      exact .cons hserves (ih hlater)

theorem Plays.session {calls : List Call} {found : List (Yield C)} (h : s.Plays r calls found r')
    (hr : s.Session r) : s.Session r' :=
  h.invariant (P := fun _ r => s.Session r) [] (fun _ _ hr => hr.next) (fun _ _ hr => hr.stop) hr

theorem Move.phase_ne_idle {o : Option (Signal C K A E)} (h : s.Move r r' o) :
    r'.phase ≠ .idle := by
  cases h with
  | rest hp => simp [hp]
  | known hmeets _ _ | refused hmeets _ => cases hmeets <;> exact fun hp => by cases hp
  | _ => exact fun hp => by cases hp

theorem Leads.phase_ne_idle {signal : Signal C K A E} (h : s.Leads r r' signal) :
    r'.phase ≠ .idle := by
  induction h with
  | last hm => exact hm.phase_ne_idle
  | more _ _ ih => exact ih

theorem Move.closed_of_ends {signal : Signal C K A E} {failure : Option (Failure C K A E)}
    (h : s.Move r r' (some signal)) (hends : Ends signal failure) : r'.phase = .closed := by
  cases h with
  | rest hp => exact hp
  | root _ _ _ _ | child _ _ _ _ _ => cases hends
  | _ => rfl

theorem closed_of_ends {signal : Signal C K A E} {failure : Option (Failure C K A E)}
    (h : s.next r = (r', signal)) (hends : Ends signal failure) : r'.phase = .closed := by
  have hleads := leads_of_next h
  clear h
  induction hleads with
  | last hm => exact hm.closed_of_ends hends
  | more _ _ ih => exact ih hends

theorem nextWith_of_closed (s : Search C K A E) (a : Answers C K A E) (h : r.phase = .closed) :
    s.nextWith a r = (r, .done) := by
  simp only [nextWith, h]

/-- Calls on a closed run do nothing, except that the first stop sets the time of its end. -/
theorem PlaysWith.eq_or_stop {calls : List Call} {found : List (Yield C)}
    (h : s.PlaysWith a r calls found r') (hr : r.phase = .closed) :
    found = [] ∧ (r' = r ∨ r' = r.stop) := by
  induction h with
  | nil r => exact ⟨rfl, Or.inl rfl⟩
  | cons hserves _ ih =>
      cases hserves with
      | next =>
          rw [s.nextWith_of_closed a hr] at ih ⊢
          exact ih hr
      | exhaust hx =>
          obtain ⟨rfl, hnone⟩ := exhaust_of_next_ends (s.nextWith_of_closed a hr) .done hx
          rw [hnone]
          exact ih hr
      | stop =>
          obtain ⟨hfound, hstop⟩ := ih (Run.stop_phase_of_begun (by simp [hr]))
          rw [Run.stop_stop, or_self] at hstop
          exact ⟨hfound, Or.inr hstop⟩
      | result => exact ih hr

theorem PlaysWith.of_closed {calls : List Call} {found : List (Yield C)}
    (h : s.PlaysWith a r calls found r') (hr : r.phase = .closed) :
    found = [] ∧ r'.store = r.store ∧ r'.complete = r.complete := by
  obtain ⟨hfound, rfl | rfl⟩ := h.eq_or_stop hr <;> exact ⟨hfound, rfl, rfl⟩

theorem ServesWith.begun_iff {call : Call} {found : List (Yield C)}
    (h : s.ServesWith s.answers r call found r') :
    r'.phase ≠ .idle ↔ r.phase ≠ .idle ∨ Call.next = call ∨ Call.exhaust = call := by
  cases h with
  | next => simpa using (s.next_leads r).phase_ne_idle
  | exhaust hx =>
      obtain ⟨_, r₁, signal, -, -, hn, -⟩ := exhaust_eq_some.mp hx
      simpa using (leads_of_next hn).phase_ne_idle
  | stop => cases hp : r.phase <;> simp [Run.stop, hp]
  | result => simp

/-- A run has begun once it was asked for a configuration. -/
theorem Plays.begun_iff {calls : List Call} {found : List (Yield C)}
    (h : s.Plays r calls found r') :
    r'.phase ≠ .idle ↔ r.phase ≠ .idle ∨ Call.next ∈ calls ∨ Call.exhaust ∈ calls := by
  induction h with
  | nil r => simp
  | cons hserves _ ih =>
      refine ih.trans ((or_congr_left hserves.begun_iff).trans ?_)
      simp only [List.mem_cons]
      tauto

/-- The first call for a configuration closes a run that discovers nothing by it. -/
theorem Plays.of_barren {calls : List Call} {found : List (Yield C)}
    (h : s.Plays r calls found r') (hr : r.stop = r)
    (hnone : ∀ c, (s.next r).2 ≠ .discovered c) :
    found = [] ∧ (r' = r ∨ r'.store = r.store ∧ r'.complete = (s.next r).1.complete) := by
  obtain ⟨q, signal, hn⟩ : ∃ q signal, s.next r = (q, signal) := ⟨_, _, rfl⟩
  rw [hn] at hnone ⊢
  obtain ⟨failure, hends⟩ : ∃ failure, Ends signal failure := by
    rcases signal with c | _ | failure
    · exact absurd rfl (hnone c)
    · exact ⟨none, .done⟩
    · exact ⟨some failure, .failed failure⟩
  have hclosed := closed_of_ends hn hends
  have hstore : q.store = r.store := ((leads_of_next hn).unchanged hnone).1
  have hlater : ∀ {calls : List Call} {found : List (Yield C)} {r' : Run C K A E},
      s.Plays q calls found r' → found = [] ∧ r'.store = r.store ∧ r'.complete = q.complete := by
    intro calls found r' hq
    obtain ⟨hfound, hq', hcomplete⟩ := hq.of_closed hclosed
    exact ⟨hfound, hq'.trans hstore, hcomplete⟩
  induction calls generalizing found with
  | nil =>
      cases h with
      | nil => exact ⟨rfl, Or.inl rfl⟩
  | cons call calls ih =>
      cases h with
      | @cons _ r₁ _ _ _ first later hserves hs =>
          cases hserves with
          | next =>
              rw [nextWith_answers, hn] at hs ⊢
              obtain ⟨rfl, hrest⟩ := hlater hs
              exact ⟨by simp [Signal.yields_of_ends hends], Or.inr hrest⟩
          | exhaust hx =>
              obtain ⟨rfl, hyields⟩ := exhaust_of_next_ends hn hends hx
              obtain ⟨rfl, hrest⟩ := hlater hs
              exact ⟨by simp [hyields], Or.inr hrest⟩
          | stop => exact ih (hr ▸ hs)
          | result => exact ih hs

/-- After a stop no call yields or stores anything, and none changes whether the run is complete, if
the run had been asked for a configuration before. If it had not, then this is so only where the
first call neither discovers anything nor completes the run, as when the model fails. -/
theorem stop_lasts_iff (s : Search C K A E) (start : Rat) (calls : List Call)
    (found : List (Yield C)) (r : Run C K A E) (h : s.Plays (.initial start) calls found r) :
    (∀ later more q, s.Plays r.stop later more q →
      more = [] ∧ q.outcome.store = r.outcome.store ∧
        q.outcome.complete = r.outcome.complete) ↔
    (Call.next ∈ calls ∨ Call.exhaust ∈ calls) ∨
      (∀ c, (s.next r.stop).2 ≠ .discovered c) ∧ (s.next r.stop).1.outcome.complete = false := by
  have hbegun : r.phase ≠ .idle ↔ Call.next ∈ calls ∨ Call.exhaust ∈ calls := by
    simpa [Run.initial] using h.begun_iff
  by_cases hidle : r.phase = .idle
  · -- nothing was closed by the stop, so that all depends on what the first call then does
    have hasked : ¬ (Call.next ∈ calls ∨ Call.exhaust ∈ calls) := fun hb => hbegun.mpr hb hidle
    have hunfinished : r.finished = false :=
      (h.session (.initial start)).covered.unfinished (by simp [hidle])
    have hincomplete : r.outcome.complete = false := by
      simp [Run.outcome, Run.complete, hunfinished]
    rw [or_iff_right hasked]
    constructor
    · intro hlasts
      obtain ⟨hmore, -, hcomplete⟩ := hlasts [.next] _ _ (.cons .next (.nil _))
      refine ⟨fun c hc => ?_, hcomplete.trans hincomplete⟩
      rw [nextWith_answers, hc] at hmore
      cases hmore
    · rintro ⟨hbarren, hcomplete⟩ later more q hq
      obtain ⟨hmore, rfl | ⟨hstore, hsame⟩⟩ := hq.of_barren r.stop_stop hbarren
      · exact ⟨hmore, rfl, rfl⟩
      · exact ⟨hmore, hstore, hsame.trans (hcomplete.trans hincomplete.symm)⟩
  · refine iff_of_true ?_ (Or.inl (hbegun.mp hidle))
    intro later more q hq
    exact hq.of_closed (Run.stop_phase_of_begun hidle)

/-- Stopped behind its first configuration, the exploration has come to its end. -/
theorem parity_stop_lasts :
    ∃ found r, parity.Plays (.initial 0) [.next] found r ∧ found.map (·.configuration) = [0] ∧
      ∀ later more q, parity.Plays r.stop later more q →
        more = [] ∧ q.outcome.store = r.outcome.store ∧
          q.outcome.complete = r.outcome.complete := by
  have hplayed : ∃ found r, parity.Plays (.initial 0) [.next] found r ∧
      found.map (·.configuration) = [0] := ⟨_, _, .cons .next (.nil _), rfl⟩
  obtain ⟨found, r, h, hfound⟩ := hplayed
  exact ⟨found, r, h, hfound, (stop_lasts_iff parity 0 [.next] found r h).mpr
    (Or.inl (Or.inl (List.mem_singleton.mpr rfl)))⟩

/-- Stopped before its first configuration, the exploration is made all the same, and it is complete
in the end. -/
theorem parity_stop_forgotten :
    parity.Plays (.initial 0) [] [] (.initial 0) ∧
    ∃ more q, parity.Plays (Run.initial 0).stop [.next, .exhaust] more q ∧
      more.map (·.configuration) = [0, 1] ∧
      (Run.initial 0 : Run Nat Nat Unit Unit).complete = false ∧ q.complete = true := by
  have hrun : ∃ q, parity.exhaust 2 (parity.next (Run.initial 0).stop).1 = some (q, none) ∧
      q.complete = true := ⟨_, rfl, rfl⟩
  obtain ⟨q, hq, hcomplete⟩ := hrun
  exact ⟨.nil _, _, q, .cons .next (.cons (.exhaust hq) (.nil q)), rfl, rfl, hcomplete⟩

end Search

end StateSpace
