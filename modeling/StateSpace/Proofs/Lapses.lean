import StateSpace.Proofs.Discovery
import StateSpace.Proofs.Replay

/-!
# Keys that fail at some looks

A run looks at the key of a configuration more than once: where it asks whether it has the
configuration, where it records it, where it stores it, and where it records what was reached from
it. A key function may fail at any of these looks. If all looks that succeed agree on the key, then
a run takes the course of one whose keys never fail, up to the first look that does. That look
closes the run between two discoveries. Only where it is the last look at a new configuration, the
forest has that configuration and the store has not.
-/

namespace StateSpace.Search

variable {C K A E : Type} {s : Search C K A E} {a : Answers C K A E} {r r' q : Run C K A E} {e : E}
  {extra : Option C}

/-- A look at the key of a configuration fails, or it gives the key that the configuration has. -/
structure Faithful (s : Search C K A E) (a : Answers C K A E) : Prop where
  lookup : ∀ {r c k}, a.lookup r c = .ok k → s.identify c = .ok k
  record : ∀ {r c k}, a.record r c = .ok k → s.identify c = .ok k
  parent : ∀ {r w k}, s.identify w.configuration = .ok w.key → a.parent r w = .ok k → k = w.key
  store : ∀ {r c k}, a.store r c = .ok k → s.identify c = .ok k

theorem faithful_answers (s : Search C K A E) : s.Faithful s.answers where
  lookup h := h
  record h := h
  parent _ h := (Except.ok.inj h).symm
  store h := h

def Undecided (r : Run C K A E) : Prop :=
  r.phase ≠ .closed → r.budgetReason = none ∧ r.finished = false

variable [DecidableEq K]

/-- What the run asks at this point is answered by a fault: a look at the key of a configuration
that it meets, or at that of its source, one more root, or one more edge of the configuration that
it has taken off the frontier. If the last look at a new configuration fails, this has been
recorded. -/
inductive Raises (s : Search C K A E) (a : Answers C K A E) (r : Run C K A E) :
    E → Option C → Prop where
  | lookup {counted : Run C K A E} {c : C}
      {record : Run C K A E → Except (Failure C K A E) (Forest K C A)} {depth : Nat}
      {phase : Phase C K A E} {e : E} (h : Meeting a r counted c record depth phase)
      (he : a.lookup counted c = .error e) : Raises s a r e none
  | record {counted : Run C K A E} {c : C}
      {record : Run C K A E → Except (Failure C K A E) (Forest K C A)} {depth : Nat}
      {phase : Phase C K A E} {k : Key K} {e : E} (h : Meeting a r counted c record depth phase)
      (hk : a.lookup counted c = .ok k) (hc : counted.store.contains k = false)
      (hb : s.outOfBudget (s.look counted) = none)
      (he : record (s.look counted) = .error (.fault e)) : Raises s a r e none
  | store {counted : Run C K A E} {c : C}
      {record : Run C K A E → Except (Failure C K A E) (Forest K C A)} {depth : Nat}
      {phase : Phase C K A E} {k : Key K} {forest : Forest K C A} {e : E}
      (h : Meeting a r counted c record depth phase) (hk : a.lookup counted c = .ok k)
      (hc : counted.store.contains k = false) (hb : s.outOfBudget (s.look counted) = none)
      (hf : record (s.look counted) = .ok forest)
      (he : a.store { s.look counted with forest := forest } c = .error e) :
      Raises s a r e (some c)
  | roots {fault : Option E} {e : E} (h : r.phase = .roots [] fault)
      (he : s.graph.roots.fault = some e) : Raises s a r e none
  | edges {source : Waiting C K} {fault : Option E} {e : E} (h : r.phase = .edges source [] fault)
      (he : (s.graph.edges source.configuration).fault = some e) : Raises s a r e none

inductive PassesWith (s : Search C K A E) (a : Answers C K A E) :
    Run C K A E → Run C K A E → Prop where
  | refl (r : Run C K A E) : PassesWith s a r r
  | step {r r₁ r' : Run C K A E} (h : s.MoveWith a r r₁ none) (hs : PassesWith s a r₁ r') :
      PassesWith s a r r'

/-- A forest is as it was, or it has one configuration more whose key is not stored. -/
inductive Grown (s : Search C K A E) (store : Store K C) (forest : Forest K C A) :
    Forest K C A → Option C → Prop where
  | same : Grown s store forest forest none
  | node {c : C} {k : Key K} (origin : Origin K C A) (hk : s.identify c = .ok k)
      (hnew : store.contains k = false) :
      Grown s store forest ⟨⟨k, origin⟩ :: forest.nodes⟩ (some c)

structure Follows (s : Search C K A E) (q r : Run C K A E) (extra : Option C) : Prop where
  store : r.store = q.store
  frontier : r.frontier = q.frontier
  maxDepth : r.maxDepth = q.maxDepth
  forest : s.Grown q.store q.forest r.forest extra

structure Lapse (s : Search C K A E) (q r : Run C K A E) (extra : Option C) : Prop
    extends s.Follows q r extra where
  phase : r.phase = .closed
  budgetReason : r.budgetReason = none
  finished : r.finished = false

namespace Grown

variable {store : Store K C} {forest grown : Forest K C A}

theorem extended (h : s.Grown store forest grown extra) (hs : s.History store forest) :
    forest.Extends grown := by
  cases h with
  | same => exact .refl forest
  | node origin hk hnew => exact ⟨[_], rfl, by simpa using (hs.contains_eq _).trans hnew⟩

theorem size_eq (h : s.Grown store forest grown extra) :
    grown.size = forest.size + extra.toList.length := by
  cases h <;> rfl

theorem apart {c : C} (h : s.Grown store forest grown (some c)) :
    ∃ k, s.identify c = .ok k ∧ store.contains k = false := by
  cases h with
  | node _ hk hnew => exact ⟨_, hk, hnew⟩

theorem contains_iff {k : Key K} (h : s.Grown store forest grown extra) :
    grown.contains k = true ↔ forest.contains k = true ∨
      ∃ c a, extra = some c ∧ k = some a ∧ s.identify c = .ok (some a) := by
  cases h with
  | same => simp
  | @node c j origin hk hnew =>
      rw [Forest.contains_cons, Bool.or_eq_true, Key.same_iff, or_comm]
      refine or_congr_right ⟨?_, ?_⟩
      · rintro ⟨a, rfl, rfl⟩
        exact ⟨c, a, rfl, rfl, hk⟩
      · rintro ⟨c', a, heq, rfl, ha⟩
        cases heq
        exact ⟨a, Except.ok.inj (hk.symm.trans ha), rfl⟩

end Grown

theorem Follows.refl (s : Search C K A E) (r : Run C K A E) : s.Follows r r none :=
  ⟨rfl, rfl, rfl, .same⟩

theorem Lapse.stop (h : s.Lapse q r extra) : s.Lapse q r.stop extra where
  store := h.store
  frontier := h.frontier
  maxDepth := h.maxDepth
  forest := h.forest
  phase := by simp [Run.stop, h.phase]
  budgetReason := h.budgetReason
  finished := h.finished

theorem Undecided.move {o : Option (Signal C K A E)} (h : Undecided r) (hm : s.Move r r' o) :
    Undecided r' := by
  cases hm with
  | rest _ => exact h
  | begin hp => exact fun _ => h (by simp [hp])
  | known hmeets _ _ =>
      have hr := h hmeets.phase_ne_closed
      cases hmeets <;> exact fun _ => hr
  | root hp _ _ _ => exact fun _ => h (by simp [hp])
  | child hp _ _ _ _ => exact fun _ => h (by simp [hp])
  | expand ht _ _ => exact fun _ => h ht.phase_ne_closed
  -- every other move closes the run
  | _ => exact fun hopen => absurd rfl hopen

theorem Session.undecided (h : s.Session r) : Undecided r := by
  refine h.invariant (fun _ _ => ⟨rfl, rfl⟩) (fun _ _ _ hr hm => hr.move hm) ?_ (fun _ _ hr => hr)
  intro r hr hopen
  refine hr fun hp => hopen ?_
  simp [Run.stop, hp]

theorem Sound.identify_source {source : Waiting C K} {pending : List (Option A × C)}
    {fault : Option E} (hr : s.Sound r) (hp : r.phase = .edges source pending fault) :
    s.identify source.configuration = .ok source.key := by
  have htold := hr.told
  rw [hp] at htold
  exact hr.history.identify_of_mem htold.1

section Recording

variable {c : C} {k : Key K} {source : Waiting C K} {edge : Option A × C} {forest : Forest K C A}

theorem recordRoot_eq_error {failure : Failure C K A E} (h : recordRoot a q c = .error failure) :
    ∃ e, failure = .fault e := by
  unfold recordRoot at h
  cases hrecord : a.record q c with
  | error e => simp_all [eq_comm]
  | ok k => simp [hrecord] at h

theorem Faithful.recordRoot_eq_ok (ha : s.Faithful a) (hk : s.identify c = .ok k)
    (h : recordRoot a q c = .ok forest) : q.forest.addRoot k c = forest := by
  unfold recordRoot at h
  cases hrecord : a.record q c with
  | error e => simp [hrecord] at h
  | ok j =>
      cases hk.symm.trans (ha.record hrecord)
      simpa [hrecord] using h

theorem Faithful.recordEdge_cases (ha : s.Faithful a) (hk : s.identify edge.2 = .ok k)
    (hsource : s.identify source.configuration = .ok source.key)
    (hnew : q.forest.contains k = false) :
    (∃ e, recordEdge a q source edge = .error (.fault e)) ∨
      recordEdge a q source edge = (q.forest.record? k source.configuration source.key edge.1).elim
        (.error (.unreachable source.configuration)) .ok := by
  unfold recordEdge
  cases hrecord : a.record q edge.2 with
  | error e => exact Or.inl ⟨e, rfl⟩
  | ok j =>
      cases hk.symm.trans (ha.record hrecord)
      simp only [hnew, Bool.false_eq_true, if_false]
      cases hparent : a.parent q source with
      | error e => exact Or.inl ⟨e, rfl⟩
      | ok parentKey =>
          cases ha.parent hsource hparent
          right
          dsimp only
          cases q.forest.record? k source.configuration source.key edge.1 <;> rfl

theorem Faithful.recordEdge_eq_ok (ha : s.Faithful a) (hk : s.identify edge.2 = .ok k)
    (hsource : s.identify source.configuration = .ok source.key)
    (hnew : q.forest.contains k = false) (h : recordEdge a q source edge = .ok forest) :
    q.forest.record? k source.configuration source.key edge.1 = some forest := by
  rcases ha.recordEdge_cases hk hsource hnew with ⟨e, he⟩ | heq
  · cases h.symm.trans he
  · rw [heq] at h
    cases hr : q.forest.record? k source.configuration source.key edge.1 with
    | none => simp [hr] at h
    | some grown => simpa [hr] using h

end Recording

namespace Faithful

/-- A move that does not fail with a fault is one that would be made if no look failed. -/
theorem move {o : Option (Signal C K A E)} (ha : s.Faithful a) (hr : s.Sound r)
    (hm : s.MoveWith a r r' o) (ho : ∀ e, o ≠ some (.failed (.fault e))) : s.Move r r' o := by
  cases hm with
  | rest hp => exact .rest hp
  | begin hp => exact .begin hp
  | known hmeets hk hc =>
      cases hmeets with
      | root hp => exact .known (.root hp) (ha.lookup hk) hc
      | edge hp => exact .known (.edge hp) (ha.lookup hk) hc
  | overBudget hmeets hk hc hb hs =>
      cases hmeets with
      | root hp => exact .overBudget (.root hp) (ha.lookup hk) hc hb hs
      | edge hp => exact .overBudget (.edge hp) (ha.lookup hk) hc hb hs
  | @unrecorded _ _ _ _ _ k failure hmeets hk hc hb hf =>
      cases hmeets with
      | root hp =>
          obtain ⟨e, rfl⟩ := recordRoot_eq_error hf
          exact absurd rfl (ho e)
      | @edge source edge _ _ hp =>
          have hnew : (s.look r.count).forest.contains k = false :=
            (hr.history.contains_eq k).trans hc
          rcases ha.recordEdge_cases (ha.lookup hk) (hr.identify_source hp) hnew with
            ⟨e, he⟩ | heq
          · cases hf.symm.trans he
            exact absurd rfl (ho e)
          · have hfailed := heq.symm.trans hf
            cases hrecord : (s.look r.count).forest.record? k source.configuration source.key
                edge.1 with
            | some grown => simp [hrecord] at hfailed
            | none =>
                rw [hrecord] at hfailed
                cases hfailed
                exact .orphaned hp (ha.lookup hk) hc hb hrecord
  | discovered hmeets hk hc hb hf hj =>
      have hid := ha.lookup hk
      cases Except.ok.inj (hid.symm.trans (ha.store hj))
      cases hmeets with
      | root hp =>
          cases ha.recordRoot_eq_ok hid hf
          exact .root hp hid hc hb
      | edge hp =>
          have hnew : (s.look r.count).forest.contains _ = false :=
            (hr.history.contains_eq _).trans hc
          have hrecord := ha.recordEdge_eq_ok hid (hr.identify_source hp) hnew hf
          exact .child hp hid hc hb hrecord
  | refused _ _ | unstored _ _ _ _ _ _ | broken _ => exact absurd rfl (ho _)
  | overTime ht hf hb hs => exact .overTime ht hf hb hs
  | expand ht hf hb => exact .expand ht hf hb
  | finish ht hf => exact .finish ht hf

/-- A move that fails with a fault meets it in one of the ways there are, and closes the run. -/
theorem lapse (ha : s.Faithful a) (hr : s.Sound r) (hopen : Undecided r)
    (hm : s.MoveWith a r r' (some (.failed (.fault e)))) :
    ∃ extra, s.Raises a r e extra ∧ s.Lapse r r' extra := by
  cases hm with
  | overBudget _ _ _ _ hs | overTime _ _ _ hs => exact absurd hs (s.exceed_ne_fault _ _ e)
  | refused hmeets he =>
      obtain ⟨hbudget, hfinished⟩ := hopen hmeets.meets.phase_ne_closed
      refine ⟨none, .lookup hmeets he, ?_⟩
      cases hmeets <;> exact ⟨⟨rfl, rfl, rfl, .same⟩, rfl, hbudget, hfinished⟩
  | unrecorded hmeets hk hc hb hf =>
      obtain ⟨hbudget, hfinished⟩ := hopen hmeets.meets.phase_ne_closed
      refine ⟨none, .record hmeets hk hc hb hf, ?_⟩
      cases hmeets <;> exact ⟨⟨rfl, rfl, rfl, .same⟩, rfl, hbudget, hfinished⟩
  | @unstored _ c _ _ _ k forest _ hmeets hk hc hb hf he =>
      obtain ⟨hbudget, hfinished⟩ := hopen hmeets.meets.phase_ne_closed
      refine ⟨some c, .store hmeets hk hc hb hf he, ?_⟩
      have hid := ha.lookup hk
      cases hmeets with
      | root hp =>
          have hnew : r.forest.contains k = false := (hr.history.contains_eq k).trans hc
          have hgrown := (ha.recordRoot_eq_ok hid hf).symm.trans (r.forest.addRoot_of_new c hnew)
          exact ⟨⟨rfl, rfl, rfl, hgrown ▸ .node _ hid hc⟩, rfl, hbudget, hfinished⟩
      | edge hp =>
          have hnew : (s.look r.count).forest.contains k = false :=
            (hr.history.contains_eq k).trans hc
          have hrecord := ha.recordEdge_eq_ok hid (hr.identify_source hp) hnew hf
          obtain ⟨-, hgrown⟩ := hr.history.record?_of_new hc hrecord
          exact ⟨⟨rfl, rfl, rfl, hgrown ▸ .node _ hid hc⟩, rfl, hbudget, hfinished⟩
  | broken hb =>
      obtain ⟨hbudget, hfinished⟩ := hopen hb.phase_ne_closed
      refine ⟨none, ?_, ⟨rfl, rfl, rfl, .same⟩, rfl, hbudget, hfinished⟩
      have htold := hr.told
      generalize hp : r.phase = phase at hb htold
      cases hb with
      | roots => exact .roots hp htold.2.symm
      | edges source => exact .edges hp htold.2.2.symm

theorem leads {signal : Signal C K A E} (ha : s.Faithful a) (hr : s.Sound r)
    (hl : s.LeadsWith a r r' signal) (hs : ∀ e, signal ≠ .failed (.fault e)) :
    s.Leads r r' signal := by
  induction hl with
  | last hm => exact .last (ha.move hr hm (by simpa using hs))
  | more hm _ ih =>
      have hmove := ha.move hr hm (by simp)
      exact .more hmove (ih (hr.move hmove) hs)

theorem lapses (ha : s.Faithful a) (hr : s.Sound r) (hopen : Undecided r)
    (hl : s.LeadsWith a r r' (.failed (.fault e))) :
    ∃ q extra, s.PassesWith a r q ∧ s.Raises a q e extra ∧ s.Lapse q r' extra := by
  generalize hsig : Signal.failed (.fault e) = signal at hl
  induction hl with
  | last hm =>
      subst hsig
      obtain ⟨extra, hraises, hlapse⟩ := ha.lapse hr hopen hm
      exact ⟨_, extra, .refl _, hraises, hlapse⟩
  | more hm _ ih =>
      have hmove := ha.move hr hm (by simp)
      obtain ⟨q, extra, hpasses, hlapses⟩ := ih (hr.move hmove) (hopen.move hmove) hsig
      exact ⟨q, extra, .step hm hpasses, hlapses⟩

/-- What plain moves without a signal keep is kept on the way to the next signal. -/
theorem passes {P : Run C K A E → Prop} (ha : s.Faithful a) (hr : s.Sound r)
    (hmove : ∀ r r', P r → s.Move r r' none → P r') (h : s.PassesWith a r q) (hP : P r) :
    s.Sound q ∧ P q := by
  induction h with
  | refl r => exact ⟨hr, hP⟩
  | step hm _ ih =>
      have hplain := ha.move hr hm (by simp)
      exact ih (hr.move hplain) (hmove _ _ hP hplain)

end Faithful

theorem Raises.moveWith (h : s.Raises a r e extra) (hr : s.Sound r) :
    ∃ r', s.MoveWith a r r' (some (.failed (.fault e))) := by
  have htold := hr.told
  cases h with
  | lookup hmeets he => exact ⟨_, .refused hmeets he⟩
  | record hmeets hk hc hb he => exact ⟨_, .unrecorded hmeets hk hc hb he⟩
  | store hmeets hk hc hb hf he => exact ⟨_, .unstored hmeets hk hc hb hf he⟩
  | roots hp he =>
      rw [hp] at htold
      have hb : Breaks r.phase e := by
        rw [hp, htold.2, he]
        exact .roots e
      exact ⟨_, .broken hb⟩
  | @edges source _ e hp he =>
      rw [hp] at htold
      have hb : Breaks r.phase e := by
        rw [hp, htold.2.2, he]
        exact .edges source e
      exact ⟨_, .broken hb⟩

theorem Raises.phase_ne_closed (h : s.Raises a r e extra) : r.phase ≠ .closed := by
  cases h with
  | lookup hmeets _ | record hmeets _ _ _ _ | store hmeets _ _ _ _ _ =>
      exact hmeets.meets.phase_ne_closed
  | roots hp _ | edges hp _ => simp [hp]

theorem MoveWith.phase_ne_closed (h : s.MoveWith a r r' none) : r.phase ≠ .closed := by
  cases h with
  | begin hp => simp [hp]
  | known hmeets _ _ => exact hmeets.meets.phase_ne_closed
  | expand ht _ _ => exact ht.phase_ne_closed

/-- Nothing is raised on the way from a run that is closed. -/
theorem PassesWith.phase_ne_closed (h : s.PassesWith a r q) (hraises : s.Raises a q e extra) :
    r.phase ≠ .closed := by
  cases h with
  | refl => exact hraises.phase_ne_closed
  | step hm _ => exact hm.phase_ne_closed

/-- A call for the next configuration fails with a fault exactly if that is raised on the way. -/
theorem Session.nextWith_fault_iff (hr : s.Session r) (ha : s.Faithful a) :
    (s.nextWith a r).2 = .failed (.fault e) ↔
      ∃ q extra, s.PassesWith a r q ∧ s.Raises a q e extra := by
  constructor
  · intro h
    have hl := s.nextWith_leads a r
    rw [h] at hl
    obtain ⟨q, extra, hpasses, hraises, -⟩ := ha.lapses hr.sound hr.undecided hl
    exact ⟨q, extra, hpasses, hraises⟩
  · rintro ⟨q, extra, hpasses, hraises⟩
    have hsound := hr.sound
    clear hr
    induction hpasses with
    | refl r =>
        obtain ⟨r', hm⟩ := hraises.moveWith hsound
        rw [hm.nextWith_eq]
    | step hm _ ih =>
        rw [hm.nextWith_eq_nextWith]
        exact ih hraises (hsound.move (ha.move hsound hm (by simp)))

theorem Faithful.next_eq {signal : Signal C K A E} (ha : s.Faithful a) (hr : s.Sound r)
    (h : s.nextWith a r = (r', signal)) (hs : ∀ e, signal ≠ .failed (.fault e)) :
    s.next r = (r', signal) := by
  have hl := s.nextWith_leads a r
  rw [h] at hl
  exact (ha.leads hr hl hs).next_eq

end StateSpace.Search
