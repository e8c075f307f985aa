import StateSpace.Proofs.Session

/-!
# Runs can be replayed

What a run does next depends on the run alone: whatever moves lead to a signal, `next` makes them.
Two explorations of the same run therefore agree as far as both of them go.
-/

namespace StateSpace.Search

variable {C K A E : Type} [DecidableEq K] {s : Search C K A E} {a : Answers C K A E}
  {r r' : Run C K A E}

theorem nextWith_of_turns (s : Search C K A E) (a : Answers C K A E) (h : Turns r.phase) :
    s.nextWith a r = s.workOff a r r.frontier := by
  generalize hp : r.phase = phase at h
  cases h with
  | roots => simp only [nextWith, hp, meetRoots]
  | edges source => simp only [nextWith, hp, meetEdges]

theorem Breaks.nextWith_eq {e : E} (s : Search C K A E) (a : Answers C K A E)
    (h : Breaks r.phase e) : s.nextWith a r = (r.close, .failed (.fault e)) := by
  generalize hp : r.phase = phase at h
  cases h with
  | roots => simp only [nextWith, hp, meetRoots]
  | edges source => simp only [nextWith, hp, meetEdges]

theorem meetEdges_frontier {source : Waiting C K} {fault : Option E}
    {pending : List (Option A × C)} (hp : r.phase = .edges source pending fault)
    (h : s.meetEdges a source fault r pending = (r', none)) : r'.frontier = r.frontier := by
  have hleads := s.meetEdges_leads a source fault pending r hp
  rw [h] at hleads
  exact hleads.2.1

section

variable {counted : Run C K A E} {c : C}
  {record : Run C K A E → Except (Failure C K A E) (Forest K C A)} {depth : Nat}
  {phase : Phase C K A E}

theorem Meeting.nextWith_of_signal (h : Meeting a r counted c record depth phase)
    {signal : Signal C K A E} (hm : s.meet a counted c record depth phase = (r', some signal)) :
    s.nextWith a r = (r', signal) := by
  cases h with
  | root hp => simp only [nextWith, hp, meetRoots, meetRoot, hm]
  | edge hp => simp only [nextWith, hp, meetEdges, meetEdge, hm]

theorem Meeting.nextWith_of_silent (h : Meeting a r counted c record depth phase)
    (hm : s.meet a counted c record depth phase = ({ counted with phase := phase }, none)) :
    s.nextWith a r = s.nextWith a { counted with phase := phase } := by
  cases h with
  | root hp => simp only [nextWith, hp, meetRoots, meetRoot, hm]
  | edge hp => simp only [nextWith, hp, meetEdges, meetEdge, hm]

end

/-- A move without a signal leaves to do what there was to do. -/
theorem MoveWith.nextWith_eq_nextWith (h : s.MoveWith a r r' none) :
    s.nextWith a r = s.nextWith a r' := by
  cases h with
  | begin hp =>
      simp only [nextWith, hp]
      rfl
  | known hmeets hk hc =>
      apply hmeets.nextWith_of_silent
      simp only [meet, hk, hc, if_true]
  | @expand source rest hturns hf ht =>
      have hphase : (s.expand (s.look r) source rest).phase =
          .edges source (s.graph.edges source.configuration).items
            (s.graph.edges source.configuration).fault := rfl
      rw [s.nextWith_of_turns a hturns, hf]
      -- both sides meet the edges of the source, and turn to the frontier behind them
      simp only [workOff, ht, nextWith, hphase]
      cases he : s.meetEdges a source (s.graph.edges source.configuration).fault
          (s.expand (s.look r) source rest) (s.graph.edges source.configuration).items with
      | mk q signal =>
          cases signal with
          | some signal => rfl
          | none =>
              have hfrontier : q.frontier = rest := meetEdges_frontier rfl he
              simp only [hfrontier]

theorem MoveWith.nextWith_eq {signal : Signal C K A E} (h : s.MoveWith a r r' (some signal)) :
    s.nextWith a r = (r', signal) := by
  cases h with
  | rest hp => simp only [nextWith, hp]
  | refused hmeets he =>
      apply hmeets.nextWith_of_signal
      simp only [meet, he]
  | overBudget hmeets hk hc hb hs =>
      subst hs
      apply hmeets.nextWith_of_signal
      simp only [meet, hk, hc, Bool.false_eq_true, if_false, hb]
  | unrecorded hmeets hk hc hb hf =>
      apply hmeets.nextWith_of_signal
      simp only [meet, hk, hc, Bool.false_eq_true, if_false, hb, hf, adopt]
  | unstored hmeets hk hc hb hf he =>
      apply hmeets.nextWith_of_signal
      simp only [meet, hk, hc, Bool.false_eq_true, if_false, hb, hf, adopt, he]
  | discovered hmeets hk hc hb hf hj =>
      apply hmeets.nextWith_of_signal
      simp only [meet, hk, hc, Bool.false_eq_true, if_false, hb, hf, adopt, hj]
  | broken hbreaks => exact hbreaks.nextWith_eq s a
  | overTime hturns hf ht hs =>
      subst hs
      rw [s.nextWith_of_turns a hturns, hf]
      simp only [workOff, ht]
  | finish hturns hf =>
      rw [s.nextWith_of_turns a hturns, hf]
      rfl

theorem Move.next_eq_next (h : s.Move r r' none) : s.next r = s.next r' :=
  h.moveWith.nextWith_eq_nextWith

theorem Move.next_eq {signal : Signal C K A E} (h : s.Move r r' (some signal)) :
    s.next r = (r', signal) :=
  h.moveWith.nextWith_eq

theorem Leads.next_eq {signal : Signal C K A E} (h : s.Leads r r' signal) :
    s.next r = (r', signal) := by
  induction h with
  | last hm => exact hm.next_eq
  | more hm _ ih => exact hm.next_eq_next.trans ih

/-- Of two series of discoveries from one run, of which the second came to its end, the first is the
beginning of the second. -/
theorem Discovers.append_of_ends {found all : List C} {r₁ r₂ r₃ : Run C K A E}
    {signal : Signal C K A E} {failure : Option (Failure C K A E)} (h : s.Discovers r found r₁)
    (hall : s.Discovers r all r₂) (hn : s.next r₂ = (r₃, signal)) (hends : Ends signal failure) :
    ∃ after, all = found ++ after ∧ s.Discovers r₁ after r₂ := by
  induction h generalizing all with
  | nil r => exact ⟨all, rfl, hall⟩
  | @cons r q r₁ c found hc _ ih =>
      cases hall with
      | nil =>
          cases hn.symm.trans hc
          cases hends
      | cons hd hrest =>
          rw [hc] at hd
          cases hd
          obtain ⟨after, rfl, hafter⟩ := ih hrest
          exact ⟨after, rfl, hafter⟩

end StateSpace.Search
