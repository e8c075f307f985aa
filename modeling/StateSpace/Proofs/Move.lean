import Mathlib.Tactic.Common
import StateSpace.Run

/-!
# Runs as sequences of moves

A move is the smallest change of a run: it begins, meets one root or one edge, turns to the
frontier, or ends. `MoveWith` lists every move there is under given answers of the key function,
with the conditions under which it is made; `nextWith` makes moves up to the first one that gives a
signal. `Move` are the moves of a run whose key function has one answer for each configuration. What
every move keeps is therefore true at every point of a session, in which a run is asked for its next
discovery, is stopped or waits.
-/

namespace StateSpace.Search

variable {C K A E : Type}

/-- The configuration that a run meets next, the run in which that is counted, and the phase in
which the run goes on if it has the configuration already. -/
inductive Meets (r : Run C K A E) : Run C K A E → C → Phase C K A E → Prop where
  | root {c : C} {rest : List C} {fault : Option E} (h : r.phase = .roots (c :: rest) fault) :
      Meets r r c (.roots rest fault)
  | edge {source : Waiting C K} {edge : Option A × C} {rest : List (Option A × C)}
      {fault : Option E} (h : r.phase = .edges source (edge :: rest) fault) :
      Meets r r.count edge.2 (.edges source rest fault)

inductive Turns : Phase C K A E → Prop where
  | roots : Turns (.roots [] none)
  | edges (source : Waiting C K) : Turns (.edges source [] none)

inductive Breaks : Phase C K A E → E → Prop where
  | roots (e : E) : Breaks (.roots [] (some e)) e
  | edges (source : Waiting C K) (e : E) : Breaks (.edges source [] (some e)) e

theorem Meets.phase_ne_closed {r counted : Run C K A E} {c : C} {phase : Phase C K A E}
    (h : Meets r counted c phase) : r.phase ≠ .closed := by
  cases h with
  | root hp => simp [hp]
  | edge hp => simp [hp]

theorem Turns.phase_ne_closed {phase : Phase C K A E} (h : Turns phase) : phase ≠ .closed := by
  cases h <;> simp

theorem Breaks.phase_ne_closed {phase : Phase C K A E} {e : E} (h : Breaks phase e) :
    phase ≠ .closed := by
  cases h <;> simp

variable [DecidableEq K]

inductive Meeting (a : Answers C K A E) (r : Run C K A E) :
    Run C K A E → C → (Run C K A E → Except (Failure C K A E) (Forest K C A)) → Nat →
      Phase C K A E → Prop where
  | root {c : C} {rest : List C} {fault : Option E} (h : r.phase = .roots (c :: rest) fault) :
      Meeting a r r c (recordRoot a · c) 0 (.roots rest fault)
  | edge {source : Waiting C K} {edge : Option A × C} {rest : List (Option A × C)}
      {fault : Option E} (h : r.phase = .edges source (edge :: rest) fault) :
      Meeting a r r.count edge.2 (recordEdge a · source edge) (source.depth + 1)
        (.edges source rest fault)

inductive MoveWith (s : Search C K A E) (a : Answers C K A E) (r : Run C K A E) :
    Run C K A E → Option (Signal C K A E) → Prop where
  | rest (h : r.phase = .closed) : MoveWith s a r r (some .done)
  | begin (h : r.phase = .idle) : MoveWith s a r (s.begin r) none
  | known {counted : Run C K A E} {c : C}
      {record : Run C K A E → Except (Failure C K A E) (Forest K C A)} {depth : Nat}
      {phase : Phase C K A E} {k : Key K} (h : Meeting a r counted c record depth phase)
      (hk : a.lookup counted c = .ok k) (hc : counted.store.contains k = true) :
      MoveWith s a r { counted with phase := phase } none
  | refused {counted : Run C K A E} {c : C}
      {record : Run C K A E → Except (Failure C K A E) (Forest K C A)} {depth : Nat}
      {phase : Phase C K A E} {e : E} (h : Meeting a r counted c record depth phase)
      (he : a.lookup counted c = .error e) :
      MoveWith s a r counted.close (some (.failed (.fault e)))
  | overBudget {counted : Run C K A E} {c : C}
      {record : Run C K A E → Except (Failure C K A E) (Forest K C A)} {depth : Nat}
      {phase : Phase C K A E} {k : Key K} {reason : String} {signal : Signal C K A E}
      (h : Meeting a r counted c record depth phase) (hk : a.lookup counted c = .ok k)
      (hc : counted.store.contains k = false)
      (hb : s.outOfBudget (s.look counted) = some reason)
      (hs : (s.exceed (s.look counted) reason).2 = signal) :
      MoveWith s a r (s.exceed (s.look counted) reason).1 (some signal)
  | unrecorded {counted : Run C K A E} {c : C}
      {record : Run C K A E → Except (Failure C K A E) (Forest K C A)} {depth : Nat}
      {phase : Phase C K A E} {k : Key K} {failure : Failure C K A E}
      (h : Meeting a r counted c record depth phase) (hk : a.lookup counted c = .ok k)
      (hc : counted.store.contains k = false) (hb : s.outOfBudget (s.look counted) = none)
      (hf : record (s.look counted) = .error failure) :
      MoveWith s a r (s.look counted).close (some (.failed failure))
  /-- The forest has grown already when the key fails. -/
  | unstored {counted : Run C K A E} {c : C}
      {record : Run C K A E → Except (Failure C K A E) (Forest K C A)} {depth : Nat}
      {phase : Phase C K A E} {k : Key K} {forest : Forest K C A} {e : E}
      (h : Meeting a r counted c record depth phase) (hk : a.lookup counted c = .ok k)
      (hc : counted.store.contains k = false) (hb : s.outOfBudget (s.look counted) = none)
      (hf : record (s.look counted) = .ok forest)
      (he : a.store { s.look counted with forest := forest } c = .error e) :
      MoveWith s a r (Run.close { s.look counted with forest := forest })
        (some (.failed (.fault e)))
  | discovered {counted : Run C K A E} {c : C}
      {record : Run C K A E → Except (Failure C K A E) (Forest K C A)} {depth : Nat}
      {phase : Phase C K A E} {k j : Key K} {forest : Forest K C A}
      (h : Meeting a r counted c record depth phase) (hk : a.lookup counted c = .ok k)
      (hc : counted.store.contains k = false) (hb : s.outOfBudget (s.look counted) = none)
      (hf : record (s.look counted) = .ok forest)
      (hj : a.store { s.look counted with forest := forest } c = .ok j) :
      MoveWith s a r
        { s.insert { s.look counted with forest := forest } ⟨j, c, depth⟩ with phase := phase }
        (some (.discovered c))
  | broken {e : E} (h : Breaks r.phase e) : MoveWith s a r r.close (some (.failed (.fault e)))
  | overTime {source : Waiting C K} {rest : List (Waiting C K)} {reason : String}
      {signal : Signal C K A E} (h : Turns r.phase) (hf : r.frontier = source :: rest)
      (ht : s.outOfTime (s.look r) = some reason)
      (hs : (s.exceed (s.look r) reason).2 = signal) :
      MoveWith s a r (s.exceed (s.look r) reason).1 (some signal)
  | expand {source : Waiting C K} {rest : List (Waiting C K)}
      (h : Turns r.phase) (hf : r.frontier = source :: rest)
      (ht : s.outOfTime (s.look r) = none) : MoveWith s a r (s.expand (s.look r) source rest) none
  | finish (h : Turns r.phase) (hf : r.frontier = []) : MoveWith s a r (s.finish r) (some .done)

inductive LeadsWith (s : Search C K A E) (a : Answers C K A E) :
    Run C K A E → Run C K A E → Signal C K A E → Prop where
  | last {r r' : Run C K A E} {signal : Signal C K A E} (h : s.MoveWith a r r' (some signal)) :
      LeadsWith s a r r' signal
  | more {r r₁ r' : Run C K A E} {signal : Signal C K A E} (h : s.MoveWith a r r₁ none)
      (hs : LeadsWith s a r₁ r' signal) : LeadsWith s a r r' signal

section

variable {a : Answers C K A E} {s : Search C K A E} {r r' counted : Run C K A E} {c : C}
  {record : Run C K A E → Except (Failure C K A E) (Forest K C A)} {depth : Nat}
  {phase : Phase C K A E}

theorem Meeting.meets (h : Meeting a r counted c record depth phase) :
    Meets r counted c phase := by
  cases h with
  | root hp => exact .root hp
  | edge hp => exact .edge hp

theorem meet_move (s : Search C K A E) (h : Meeting a r counted c record depth phase) :
    s.MoveWith a r (s.meet a counted c record depth phase).1
      (s.meet a counted c record depth phase).2 := by
  unfold meet
  cases hk : a.lookup counted c with
  | error e => exact .refused h hk
  | ok k =>
      by_cases hc : counted.store.contains k = true
      · simp only [hc, if_true]
        exact .known h hk hc
      · simp only [hc]
        have hnew : counted.store.contains k = false := by simpa using hc
        cases hb : s.outOfBudget (s.look counted) with
        | some reason => exact .overBudget h hk hnew hb rfl
        | none =>
            cases hf : record (s.look counted) with
            | error failure => exact .unrecorded h hk hnew hb hf
            | ok forest =>
                simp only [adopt]
                cases hj : a.store { s.look counted with forest := forest } c with
                | error e => exact .unstored h hk hnew hb hf hj
                | ok j => exact .discovered h hk hnew hb hf hj

/-- A move without a signal that meets a configuration only goes on behind it. -/
theorem MoveWith.of_silent (hm : s.MoveWith a r r' none)
    (h : Meeting a r counted c record depth phase) :
    r'.phase = phase ∧ r'.frontier = r.frontier := by
  cases hm with
  | begin hp => cases h with
    | root hr => simp [hr] at hp
    | edge hr => simp [hr] at hp
  | known hmeets _ _ =>
      cases h with
      | root hr =>
          cases hmeets with
          | root hp =>
              rw [hr] at hp
              cases hp
              exact ⟨rfl, rfl⟩
          | edge hp => simp [hr] at hp
      | edge hr =>
          cases hmeets with
          | root hp => simp [hr] at hp
          | edge hp =>
              rw [hr] at hp
              cases hp
              exact ⟨rfl, rfl⟩
  | expand ht _ _ =>
      cases h with
      | root hr =>
          rw [hr] at ht
          cases ht
      | edge hr =>
          rw [hr] at ht
          cases ht

end

/-- Meeting edges makes moves. Where they give no signal, the run stands at the end of its edges,
with the frontier as it was. -/
theorem meetEdges_leads (s : Search C K A E) (a : Answers C K A E) (source : Waiting C K)
    (fault : Option E) (pending : List (Option A × C)) (r : Run C K A E)
    (h : r.phase = .edges source pending fault) :
    match s.meetEdges a source fault r pending with
    | (r', some signal) => s.LeadsWith a r r' signal
    | (r', none) => r'.phase = .edges source [] none ∧ r'.frontier = r.frontier ∧
        ∀ r'' signal, s.LeadsWith a r' r'' signal → s.LeadsWith a r r'' signal := by
  induction pending generalizing r with
  | nil =>
      cases fault with
      | some e => exact .last (.broken (h ▸ .edges source e))
      | none => exact ⟨h, rfl, fun _ _ hl => hl⟩
  | cons edge rest ih =>
      have hmeets : Meeting a r _ _ _ _ _ := .edge h
      have hm := s.meet_move hmeets
      unfold meetEdges
      cases he : s.meetEdge a r source edge rest fault with
      | mk r₁ signal =>
          rw [meetEdge] at he
          rw [he] at hm
          cases signal with
          | some signal => exact .last hm
          | none =>
              obtain ⟨hphase, hfrontier⟩ := hm.of_silent hmeets
              have hrest := ih r₁ hphase
              dsimp only
              cases hr : s.meetEdges a source fault r₁ rest with
              | mk r₂ signal =>
                  rw [hr] at hrest
                  cases signal with
                  | some signal => exact .more hm hrest
                  | none =>
                      obtain ⟨hp, hf, hl⟩ := hrest
                      exact ⟨hp, hf.trans hfrontier,
                        fun r'' signal h' => .more hm (hl r'' signal h')⟩

theorem workOff_leads (s : Search C K A E) (a : Answers C K A E) (frontier : List (Waiting C K))
    (r : Run C K A E) (hf : r.frontier = frontier) (h : Turns r.phase) :
    s.LeadsWith a r (s.workOff a r frontier).1 (s.workOff a r frontier).2 := by
  induction frontier generalizing r with
  | nil => exact .last (.finish h hf)
  | cons source rest ih =>
      cases ht : s.outOfTime (s.look r) with
      | some reason =>
          simp only [workOff, ht]
          exact .last (.overTime h hf ht rfl)
      | none =>
          have hm : s.MoveWith a r (s.expand (s.look r) source rest) none := .expand h hf ht
          have hedges := s.meetEdges_leads a source (s.graph.edges source.configuration).fault
            (s.graph.edges source.configuration).items (s.expand (s.look r) source rest) rfl
          simp only [workOff, ht]
          cases he : s.meetEdges a source (s.graph.edges source.configuration).fault
              (s.expand (s.look r) source rest) (s.graph.edges source.configuration).items with
          | mk r₁ signal =>
              rw [he] at hedges
              cases signal with
              | some signal => exact .more hm hedges
              | none =>
                  obtain ⟨hp, hfrontier, hl⟩ := hedges
                  exact .more hm (hl _ _ (ih r₁ hfrontier (hp ▸ .edges source)))

theorem meetRoots_leads (s : Search C K A E) (a : Answers C K A E) (fault : Option E)
    (pending : List C) (r : Run C K A E) (h : r.phase = .roots pending fault) :
    s.LeadsWith a r (s.meetRoots a fault r pending).1 (s.meetRoots a fault r pending).2 := by
  induction pending generalizing r with
  | nil =>
      cases fault with
      | some e => exact .last (.broken (h ▸ .roots e))
      | none => exact s.workOff_leads a r.frontier r rfl (h ▸ .roots)
  | cons c rest ih =>
      have hmeets : Meeting a r _ _ _ _ _ := .root h
      have hm := s.meet_move hmeets
      unfold meetRoots
      cases he : s.meetRoot a r c rest fault with
      | mk r₁ signal =>
          rw [meetRoot] at he
          rw [he] at hm
          cases signal with
          | some signal => exact .last hm
          | none => exact .more hm (ih r₁ (hm.of_silent hmeets).1)

/-- Going on to the next discovery makes moves up to the first signal. -/
theorem nextWith_leads (s : Search C K A E) (a : Answers C K A E) (r : Run C K A E) :
    s.LeadsWith a r (s.nextWith a r).1 (s.nextWith a r).2 := by
  unfold nextWith
  cases h : r.phase with
  | closed => exact .last (.rest h)
  | idle => exact .more (.begin h) (s.meetRoots_leads a _ _ (s.begin r) rfl)
  | roots pending fault => exact s.meetRoots_leads a fault pending r h
  | edges source pending fault =>
      have hedges := s.meetEdges_leads a source fault pending r h
      dsimp only
      cases he : s.meetEdges a source fault r pending with
      | mk r₁ signal =>
          rw [he] at hedges
          cases signal with
          | some signal => exact hedges
          | none =>
              obtain ⟨hp, -, hl⟩ := hedges
              exact hl _ _ (s.workOff_leads a r₁.frontier r₁ rfl (hp ▸ .edges source))

inductive Move (s : Search C K A E) (r : Run C K A E) :
    Run C K A E → Option (Signal C K A E) → Prop where
  | rest (h : r.phase = .closed) : Move s r r (some .done)
  | begin (h : r.phase = .idle) : Move s r (s.begin r) none
  | known {counted : Run C K A E} {c : C} {phase : Phase C K A E} {k : Key K}
      (h : Meets r counted c phase) (hk : s.identify c = .ok k)
      (hc : r.store.contains k = true) : Move s r { counted with phase := phase } none
  | refused {counted : Run C K A E} {c : C} {phase : Phase C K A E} {e : E}
      (h : Meets r counted c phase) (he : s.identify c = .error e) :
      Move s r counted.close (some (.failed (.fault e)))
  | overBudget {counted : Run C K A E} {c : C} {phase : Phase C K A E} {k : Key K}
      {reason : String} {signal : Signal C K A E} (h : Meets r counted c phase)
      (hk : s.identify c = .ok k) (hc : r.store.contains k = false)
      (hb : s.outOfBudget (s.look counted) = some reason)
      (hs : (s.exceed (s.look counted) reason).2 = signal) :
      Move s r (s.exceed (s.look counted) reason).1 (some signal)
  | root {c : C} {rest : List C} {fault : Option E} {k : Key K}
      (h : r.phase = .roots (c :: rest) fault) (hk : s.identify c = .ok k)
      (hc : r.store.contains k = false) (hb : s.outOfBudget (s.look r) = none) :
      Move s r
        { s.insert { s.look r with forest := r.forest.addRoot k c } ⟨k, c, 0⟩ with
          phase := .roots rest fault }
        (some (.discovered c))
  | child {source : Waiting C K} {edge : Option A × C} {rest : List (Option A × C)}
      {fault : Option E} {k : Key K} {forest : Forest K C A}
      (h : r.phase = .edges source (edge :: rest) fault) (hk : s.identify edge.2 = .ok k)
      (hc : r.store.contains k = false) (hb : s.outOfBudget (s.look r.count) = none)
      (hf : r.forest.record? k source.configuration source.key edge.1 = some forest) :
      Move s r
        { s.insert { s.look r.count with forest := forest } ⟨k, edge.2, source.depth + 1⟩ with
          phase := .edges source rest fault }
        (some (.discovered edge.2))
  | orphaned {source : Waiting C K} {edge : Option A × C} {rest : List (Option A × C)}
      {fault : Option E} {k : Key K}
      (h : r.phase = .edges source (edge :: rest) fault) (hk : s.identify edge.2 = .ok k)
      (hc : r.store.contains k = false) (hb : s.outOfBudget (s.look r.count) = none)
      (hf : r.forest.record? k source.configuration source.key edge.1 = none) :
      Move s r (s.look r.count).close (some (.failed (.unreachable source.configuration)))
  | broken {e : E} (h : Breaks r.phase e) : Move s r r.close (some (.failed (.fault e)))
  | overTime {source : Waiting C K} {rest : List (Waiting C K)} {reason : String}
      {signal : Signal C K A E} (h : Turns r.phase) (hf : r.frontier = source :: rest)
      (ht : s.outOfTime (s.look r) = some reason)
      (hs : (s.exceed (s.look r) reason).2 = signal) :
      Move s r (s.exceed (s.look r) reason).1 (some signal)
  | expand {source : Waiting C K} {rest : List (Waiting C K)}
      (h : Turns r.phase) (hf : r.frontier = source :: rest)
      (ht : s.outOfTime (s.look r) = none) : Move s r (s.expand (s.look r) source rest) none
  | finish (h : Turns r.phase) (hf : r.frontier = []) : Move s r (s.finish r) (some .done)

inductive Leads (s : Search C K A E) : Run C K A E → Run C K A E → Signal C K A E → Prop where
  | last {r r' : Run C K A E} {signal : Signal C K A E} (h : s.Move r r' (some signal)) :
      Leads s r r' signal
  | more {r r₁ r' : Run C K A E} {signal : Signal C K A E} (h : s.Move r r₁ none)
      (hs : Leads s r₁ r' signal) : Leads s r r' signal

section

variable {s : Search C K A E} {r r' : Run C K A E} {o : Option (Signal C K A E)}
  {signal : Signal C K A E}

@[simp]
theorem nextWith_answers (s : Search C K A E) (r : Run C K A E) :
    s.nextWith s.answers r = s.next r := rfl

theorem recordRoot_answers (s : Search C K A E) (r : Run C K A E) {c : C} {k : Key K}
    (hk : s.identify c = .ok k) : recordRoot s.answers r c = .ok (r.forest.addRoot k c) := by
  simp only [recordRoot, answers, hk]

theorem recordEdge_answers (s : Search C K A E) (r : Run C K A E) (source : Waiting C K)
    {edge : Option A × C} {k : Key K} (hk : s.identify edge.2 = .ok k) :
    recordEdge s.answers r source edge =
      (r.forest.record? k source.configuration source.key edge.1).elim
        (.error (.unreachable source.configuration)) .ok := by
  simp only [recordEdge, answers, hk]
  by_cases hc : r.forest.contains k = true
  · simp [hc, Forest.record?]
  · simp only [hc]
    cases r.forest.record? k source.configuration source.key edge.1 <;> rfl

/-- Where there is one answer for each configuration, what was looked up is recorded and stored
under the same key. -/
theorem MoveWith.move (h : s.MoveWith s.answers r r' o) : s.Move r r' o := by
  cases h with
  | rest hp => exact .rest hp
  | begin hp => exact .begin hp
  | known hmeets hk hc =>
      cases hmeets with
      | root hp => exact .known (.root hp) hk hc
      | edge hp => exact .known (.edge hp) hk hc
  | refused hmeets he => exact .refused hmeets.meets he
  | overBudget hmeets hk hc hb hs =>
      cases hmeets with
      | root hp => exact .overBudget (.root hp) hk hc hb hs
      | edge hp => exact .overBudget (.edge hp) hk hc hb hs
  | @unrecorded _ _ _ _ _ k failure hmeets hk hc hb hf =>
      cases hmeets with
      | root hp => cases (s.recordRoot_answers (s.look r) hk).symm.trans hf
      | @edge source edge _ _ hp =>
          have hrecord := (s.recordEdge_answers (s.look r.count) source hk).symm.trans hf
          cases hr : (s.look r.count).forest.record? k source.configuration source.key edge.1 with
          | none =>
              rw [hr] at hrecord
              cases hrecord
              exact .orphaned hp hk hc hb hr
          | some forest =>
              rw [hr] at hrecord
              cases hrecord
  | unstored hmeets hk _ _ _ he => cases hk.symm.trans he
  | @discovered _ _ _ _ _ k j forest hmeets hk hc hb hf hj =>
      cases (Except.ok.inj (hk.symm.trans hj) : k = j)
      cases hmeets with
      | root hp =>
          cases (s.recordRoot_answers (s.look r) hk).symm.trans hf
          exact .root hp hk hc hb
      | @edge source edge _ _ hp =>
          have hrecord := (s.recordEdge_answers (s.look r.count) source hk).symm.trans hf
          cases hr : (s.look r.count).forest.record? k source.configuration source.key edge.1 with
          | none =>
              rw [hr] at hrecord
              cases hrecord
          | some grown =>
              rw [hr] at hrecord
              cases hrecord
              exact .child hp hk hc hb hr
  | broken hb => exact .broken hb
  | overTime ht hf hb hs => exact .overTime ht hf hb hs
  | expand ht hf hb => exact .expand ht hf hb
  | finish ht hf => exact .finish ht hf

theorem Move.moveWith (h : s.Move r r' o) : s.MoveWith s.answers r r' o := by
  cases h with
  | rest hp => exact .rest hp
  | begin hp => exact .begin hp
  | known hmeets hk hc =>
      cases hmeets with
      | root hp => exact .known (.root hp) hk hc
      | edge hp => exact .known (.edge hp) hk hc
  | refused hmeets he =>
      cases hmeets with
      | root hp => exact .refused (.root hp) he
      | edge hp => exact .refused (.edge hp) he
  | overBudget hmeets hk hc hb hs =>
      cases hmeets with
      | root hp => exact .overBudget (.root hp) hk hc hb hs
      | edge hp => exact .overBudget (.edge hp) hk hc hb hs
  | root hp hk hc hb =>
      exact .discovered (.root hp) hk hc hb (s.recordRoot_answers (s.look r) hk) hk
  | @child source edge _ _ k forest hp hk hc hb hr =>
      have hf : recordEdge s.answers (s.look r.count) source edge = .ok forest := by
        have hlook : (s.look r.count).forest.record? k source.configuration source.key
            edge.1 = some forest := hr
        rw [s.recordEdge_answers _ source hk, hlook]
        rfl
      exact .discovered (.edge hp) hk hc hb hf hk
  | @orphaned source edge _ _ k hp hk hc hb hr =>
      have hf : recordEdge s.answers (s.look r.count) source edge =
          .error (.unreachable source.configuration) := by
        have hlook : (s.look r.count).forest.record? k source.configuration source.key
            edge.1 = none := hr
        rw [s.recordEdge_answers _ source hk, hlook]
        rfl
      exact .unrecorded (.edge hp) hk hc hb hf
  | broken hb => exact .broken hb
  | overTime ht hf hb hs => exact .overTime ht hf hb hs
  | expand ht hf hb => exact .expand ht hf hb
  | finish ht hf => exact .finish ht hf

theorem LeadsWith.leads (h : s.LeadsWith s.answers r r' signal) : s.Leads r r' signal := by
  induction h with
  | last hm => exact .last hm.move
  | more hm _ ih => exact .more hm.move ih

theorem next_leads (s : Search C K A E) (r : Run C K A E) :
    s.Leads r (s.next r).1 (s.next r).2 :=
  (s.nextWith_leads s.answers r).leads

theorem leads_of_next (h : s.next r = (r', signal)) : s.Leads r r' signal := by
  have hleads := s.next_leads r
  rwa [h] at hleads

end

end StateSpace.Search
