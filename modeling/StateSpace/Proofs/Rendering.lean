import Mathlib.Data.List.Chain
import StateSpace.Proofs.Traces

/-!
# How counterexamples are shown

A counterexample is shown with one line for each step of its path. The line of a step without an
action has the mark of a beginning, and the line of any other step has an arrow with the action. The
first step never has an action, but a later one may be without: the edges of a plain graph have no
actions, and null as an action is none. The lines tell the root from the later steps exactly if each
of these has an action.
-/

namespace StateSpace

namespace Graph

variable {C A E : Type} {g : Graph C A E} {steps : List (Step C A)} {c : C}

theorem Trace.exists_root (h : g.Trace steps c) :
    ∃ root ∈ g.roots.items, ∃ later, steps = ⟨root, none⟩ :: later := by
  induction h with
  | root hc => exact ⟨_, hc, [], rfl⟩
  | step _ _ ih =>
      obtain ⟨root, hroot, later, rfl⟩ := ih
      exact ⟨root, hroot, _, rfl⟩

theorem Trace.getLast?_eq (h : g.Trace steps c) : ∃ action, steps.getLast? = some ⟨c, action⟩ := by
  cases h with
  | root _ => exact ⟨none, rfl⟩
  | @step _ _ _ action _ _ => exact ⟨action, List.getLast?_concat⟩

/-- Each step of a path is an edge that leaves the configuration of the step before. -/
theorem Trace.isChain (h : g.Trace steps c) :
    steps.IsChain fun p q => (q.action, q.configuration) ∈ (g.edges p.configuration).items := by
  induction h with
  | root _ => exact .singleton _
  | @step steps p c action ht he ih =>
      refine List.isChain_append.mpr ⟨ih, .singleton _, ?_⟩
      intro x hx y hy
      obtain ⟨before, hlast⟩ := ht.getLast?_eq
      obtain rfl := Option.some.inj (hlast.symm.trans hx)
      obtain rfl := Option.some.inj hy
      exact he

theorem Trace.exists_edge (h : g.Trace steps c) {i : Nat} {q : Step C A}
    (hq : steps[i + 1]? = some q) :
    ∃ p, steps[i]? = some p ∧ (q.action, q.configuration) ∈ (g.edges p.configuration).items := by
  obtain ⟨hlt, rfl⟩ := List.getElem?_eq_some_iff.mp hq
  exact ⟨_, List.getElem?_eq_getElem (Nat.lt_of_succ_lt hlt),
    List.isChain_iff_getElem.mp h.isChain i hlt⟩

end Graph

namespace Counterexample

def heading (ce : ValueCounterexample) : List String :=
  ["=== Counterexample for " ++ ce.kind ++ " '" ++ ce.property ++ "' ===",
   "Depth: " ++ toString ce.depth,
   "Target: " ++ ce.configuration.text,
   "Trace:"]

def initialLine (place : Nat) (c : Value) : String :=
  "  [" ++ toString place ++ "] " ++ ("[init] " ++ c.text)

def arrowLine (place : Nat) (action : String) (c : Value) : String :=
  "  [" ++ toString place ++ "] " ++ (" --[" ++ action ++ "]--> " ++ c.text)

def ShownInitial (lines : List String) (place : Nat) : Prop :=
  ∃ c, lines[place]? = some (initialLine place c)

def ShownBehindArrow (lines : List String) (place : Nat) : Prop :=
  ∃ action c, lines[place]? = some (arrowLine place action c)

structure MarkRoot (lines : List String) : Prop where
  root : ShownInitial lines 0
  later : ∀ place, 0 < place → place < lines.length → ShownBehindArrow lines place
  unique : ∃! place, ShownInitial lines place

theorem initialLine_ne_arrowLine {place : Nat} {action : String} {c d : Value} :
    initialLine place c ≠ arrowLine place action d := by
  intro h
  -- Behind the place one line goes on with a bracket and the other with a blank.
  rw [initialLine, arrowLine, String.append_right_inj, ← String.toList_inj] at h
  simp at h

section Lines

variable {steps : List TraceStep} {place : Nat}

theorem length_stepLines : (stepLines place steps).length = steps.length := by
  induction steps generalizing place with
  | nil => rfl
  | cons step rest ih => rw [stepLines, List.length_cons, ih, List.length_cons]

theorem getElem?_stepLines (i : Nat) : (stepLines place steps)[i]? =
    steps[i]?.map fun step => "  [" ++ toString (place + i) ++ "] " ++ step.text := by
  induction steps generalizing place i with
  | nil => rfl
  | cons step rest ih =>
      cases i with
      | zero => rfl
      | succ i =>
          rw [stepLines, List.getElem?_cons_succ, ih, List.getElem?_cons_succ, Nat.add_right_comm,
            Nat.add_assoc]

/-- A step has a line with the mark of a beginning or a line with an arrow, by its action. -/
theorem line_of_step {step : TraceStep} (h : steps[place]? = some step) :
    (step.action = none ∧
      (stepLines 0 steps)[place]? = some (initialLine place step.configuration)) ∨
    ∃ action, step.action = some action ∧
      (stepLines 0 steps)[place]? = some (arrowLine place action.shown step.configuration) := by
  obtain ⟨c, action⟩ := step
  rw [getElem?_stepLines, h, Nat.zero_add]
  cases action with
  | none => exact Or.inl ⟨rfl, rfl⟩
  | some action => exact Or.inr ⟨action, rfl, rfl⟩

theorem exists_step {line : String} (h : (stepLines 0 steps)[place]? = some line) :
    ∃ step, steps[place]? = some step := by
  rw [getElem?_stepLines] at h
  obtain ⟨step, hstep, -⟩ := Option.map_eq_some_iff.mp h
  exact ⟨step, hstep⟩

theorem shownInitial_iff : ShownInitial (stepLines 0 steps) place ↔
    ∃ step, steps[place]? = some step ∧ step.action = none := by
  constructor
  · rintro ⟨c, hline⟩
    obtain ⟨step, hstep⟩ := exists_step hline
    rcases line_of_step hstep with ⟨hnone, -⟩ | ⟨action, -, harrow⟩
    · exact ⟨step, hstep, hnone⟩
    · exact absurd (Option.some.inj (hline.symm.trans harrow)) initialLine_ne_arrowLine
  · rintro ⟨step, hstep, hnone⟩
    rcases line_of_step hstep with ⟨-, hline⟩ | ⟨action, hsome, -⟩
    · exact ⟨_, hline⟩
    · rw [hnone] at hsome
      cases hsome

theorem shownBehindArrow_iff : ShownBehindArrow (stepLines 0 steps) place ↔
    ∃ step, steps[place]? = some step ∧ step.action ≠ none := by
  constructor
  · rintro ⟨shown, c, hline⟩
    obtain ⟨step, hstep⟩ := exists_step hline
    rcases line_of_step hstep with ⟨-, hinitial⟩ | ⟨action, hsome, -⟩
    · exact absurd (Option.some.inj (hinitial.symm.trans hline)) initialLine_ne_arrowLine
    · exact ⟨step, hstep, by simp [hsome]⟩
  · rintro ⟨step, hstep, hsome⟩
    rcases line_of_step hstep with ⟨hnone, -⟩ | ⟨action, -, hline⟩
    · exact absurd hnone hsome
    · exact ⟨_, _, hline⟩

/-- The root is told from the later steps if and only if each of these has an action. -/
theorem markRoot_iff {root : TraceStep} {later : List TraceStep} (h : root.action = none) :
    MarkRoot (stepLines 0 (root :: later)) ↔ ∀ step ∈ later, step.action ≠ none := by
  have hroot : ShownInitial (stepLines 0 (root :: later)) 0 :=
    shownInitial_iff.mpr ⟨root, rfl, h⟩
  constructor
  · intro hmark step hstep hnone
    obtain ⟨i, hi⟩ := List.mem_iff_getElem?.mp hstep
    have hinitial : ShownInitial (stepLines 0 (root :: later)) (i + 1) :=
      shownInitial_iff.mpr ⟨step, hi, hnone⟩
    exact absurd (hmark.unique.unique hinitial hroot) (Nat.succ_ne_zero i)
  · intro hall
    have hlater (i : Nat) {step : TraceStep} (hi : (root :: later)[i + 1]? = some step) :
        step.action ≠ none := hall step (List.mem_of_getElem? hi)
    refine ⟨hroot, ?_, 0, hroot, ?_⟩
    · intro place hpos hlt
      obtain ⟨i, rfl⟩ := Nat.exists_eq_succ_of_ne_zero (Nat.ne_of_gt hpos)
      rw [length_stepLines] at hlt
      have hi := List.getElem?_eq_getElem hlt
      exact shownBehindArrow_iff.mpr ⟨_, hi, hlater i hi⟩
    · intro place hinitial
      obtain ⟨step, hstep, hnone⟩ := shownInitial_iff.mp hinitial
      cases place with
      | zero => rfl
      | succ i => exact absurd hnone (hlater i hstep)

end Lines

/-- Joined lines are the lines of the text if no line feed stands in them. -/
theorem splitOn_pretty {ce : ValueCounterexample} {lines : List String}
    (h : ce.pretty = "\n".intercalate (ce.heading ++ lines))
    (hfree : ∀ line ∈ ce.heading ++ lines, '\n' ∉ line.toList) :
    ce.pretty.toList.splitOn '\n' = (ce.heading ++ lines).map String.toList := by
  rw [h, String.toList_intercalate]
  apply List.splitOn_intercalate
  · rw [List.forall_mem_map]
    exact hfree
  · simp [heading]

end Counterexample

open Counterexample

/-- A counterexample is shown with one line for each step. The first one shows a root as the
beginning, and a later one shows its step behind an arrow if and only if the edge that led there has
an action. So the lines tell the root from the later steps if and only if all these edges have
actions, which is always so if every edge of the graph has one. In a graph without actions every
step is shown as a beginning. -/
theorem pretty_marks_root_iff (s : ValueSearch) {predicates : List ValuePredicate} {fuel : Nat}
    {start : Rat} {r : ValueRun} {v : ValueVerdict} {ce : ValueCounterexample}
    (h : s.checkAll predicates fuel (.initial start) = some (r, .ok v))
    (hce : v.counterexample = some ce) :
    ∃ lines, ce.pretty = "\n".intercalate (ce.heading ++ lines) ∧
      lines.length = ce.steps.length ∧
      ((∀ line ∈ ce.heading ++ lines, '\n' ∉ line.toList) →
        ce.pretty.toList.splitOn '\n' = (ce.heading ++ lines).map String.toList) ∧
      (∃ root ∈ s.graph.roots.items, ce.steps[0]? = some ⟨root, none⟩ ∧
        lines[0]? = some (initialLine 0 root)) ∧
      (∀ i p q, ce.steps[i]? = some p → ce.steps[i + 1]? = some q →
        (q.action, q.configuration) ∈ (s.graph.edges p.configuration).items ∧
        lines[i + 1]? = some
          (q.action.elim (initialLine (i + 1) q.configuration) fun action =>
            arrowLine (i + 1) action.shown q.configuration)) ∧
      (MarkRoot lines ↔ ∀ q ∈ ce.steps.tail, q.action ≠ none) ∧
      ((∀ c, ∀ e ∈ (s.graph.edges c).items, e.1 ≠ none) → MarkRoot lines) ∧
      ((∀ c, ∀ e ∈ (s.graph.edges c).items, e.1 = none) →
        ∀ i < lines.length, ShownInitial lines i) := by
  have htrace := (Search.Session.initial start).checkAll_trace h hce
  obtain ⟨root, hroot, later, hsteps⟩ := htrace.exists_root
  have hlater : ∀ q ∈ ce.steps.tail, ∃ p, (q.action, q.configuration) ∈ (s.graph.edges p).items := by
    intro q hq
    obtain ⟨i, hi⟩ := List.mem_iff_getElem?.mp hq
    rw [List.getElem?_tail] at hi
    obtain ⟨p, -, hedge⟩ := htrace.exists_edge hi
    exact ⟨p.configuration, hedge⟩
  have hmark : MarkRoot (stepLines 0 ce.steps) ↔ ∀ q ∈ ce.steps.tail, q.action ≠ none := by
    rw [hsteps]
    exact markRoot_iff rfl
  refine ⟨stepLines 0 ce.steps, rfl, length_stepLines, splitOn_pretty rfl, ?_, ?_, hmark, ?_, ?_⟩
  · refine ⟨root, hroot, ?_, ?_⟩ <;> rw [hsteps] <;> rfl
  · intro i p q hp hq
    obtain ⟨p', hp', hedge⟩ := htrace.exists_edge hq
    obtain rfl := Option.some.inj (hp.symm.trans hp')
    refine ⟨hedge, ?_⟩
    rcases line_of_step hq with ⟨hnone, hline⟩ | ⟨action, hsome, hline⟩
    · rw [hline, hnone]
      rfl
    · rw [hline, hsome]
      rfl
  · intro hlabelled
    refine hmark.mpr fun q hq => ?_
    obtain ⟨p, hedge⟩ := hlater q hq
    exact hlabelled p _ hedge
  · intro hplain i hi
    rw [length_stepLines] at hi
    refine shownInitial_iff.mpr ⟨ce.steps[i], List.getElem?_eq_getElem hi, ?_⟩
    cases i with
    | zero => simp [hsteps]
    | succ i =>
        obtain ⟨p, -, hedge⟩ := htrace.exists_edge (List.getElem?_eq_getElem hi)
        exact hplain p.configuration _ hedge

def Predicate.isZero : ValuePredicate := ⟨"zero", fun c => .ok (c == .int 0)⟩

def Search.unlabelled : ValueSearch :=
  { Search.single with graph := .plain [.int 0] [(.int 0, [.int 1])] }

theorem single_labelled : ∀ c, ∀ e ∈ (Search.single.graph.edges c).items, e.1 ≠ none := by
  intro c e he
  obtain ⟨action, haction, -, -, -, hlabel⟩ := Relation.mem_edges he
  have hgo : action = .value (.str "go") := by
    have hmem : action ∈ if c == .int 0 then [Action.value (.str "go")] else [] := haction
    split at hmem
    · exact List.mem_singleton.mp hmem
    · exact absurd hmem List.not_mem_nil
  rw [hlabel, hgo]
  exact Option.some_ne_none _

theorem unlabelled_edges : ∀ c, ∀ e ∈ (Search.unlabelled.graph.edges c).items, e.1 = none := by
  intro c e he
  obtain ⟨d, -, rfl⟩ := List.mem_map.mp he
  rfl

/-- An action leads to the violation, and the lines tell the root from the step that it made.
Without the action they do not. -/
theorem single_pretty_marks_root :
    (∃ r v ce lines, Search.single.checkAll [Predicate.isZero] 3 (.initial 0) = some (r, .ok v) ∧
      v.counterexample = some ce ∧ ce.pretty = "\n".intercalate (ce.heading ++ lines) ∧
      ce.pretty = "=== Counterexample for invariant 'zero' ===\nDepth: 1\nTarget: 1\nTrace:\n" ++
        "  [0] [init] 0\n  [1]  --[go]--> 1" ∧
      MarkRoot lines) ∧
    ∃ r v ce lines, Search.unlabelled.checkAll [Predicate.isZero] 3 (.initial 0) =
        some (r, .ok v) ∧ v.counterexample = some ce ∧
      ce.pretty = "\n".intercalate (ce.heading ++ lines) ∧ lines.length = 2 ∧
      ShownInitial lines 0 ∧ ShownInitial lines 1 := by
  constructor
  · have hfound : ∃ r v ce, Search.single.checkAll [Predicate.isZero] 3 (.initial 0) =
        some (r, .ok v) ∧ v.counterexample = some ce ∧
        ce.pretty = "=== Counterexample for invariant 'zero' ===\nDepth: 1\nTarget: 1\nTrace:\n" ++
          "  [0] [init] 0\n  [1]  --[go]--> 1" := ⟨_, _, _, rfl, rfl, rfl⟩
    obtain ⟨r, v, ce, h, hce, htext⟩ := hfound
    obtain ⟨lines, hpretty, -, -, -, -, -, hmark, -⟩ := pretty_marks_root_iff Search.single h hce
    exact ⟨r, v, ce, lines, h, hce, hpretty, htext, hmark single_labelled⟩
  · have hfound : ∃ r v ce, Search.unlabelled.checkAll [Predicate.isZero] 3 (.initial 0) =
        some (r, .ok v) ∧ v.counterexample = some ce ∧ ce.steps.length = 2 :=
      ⟨_, _, _, rfl, rfl, rfl⟩
    obtain ⟨r, v, ce, h, hce, htwo⟩ := hfound
    obtain ⟨lines, hpretty, hlength, -, -, -, -, -, hinitial⟩ :=
      pretty_marks_root_iff Search.unlabelled h hce
    have hall := hinitial unlabelled_edges
    rw [hlength, htwo] at hall
    exact ⟨r, v, ce, lines, h, hce, hpretty, hlength.trans htwo, hall 0 (by decide),
      hall 1 (by decide)⟩

/-- Without actions the violation is shown as a beginning, like the root. -/
theorem unlabelled_step_shown_initial :
    ∃ r v ce, Search.unlabelled.checkAll [Predicate.isZero] 3 (.initial 0) = some (r, .ok v) ∧
      v.status = .violated ∧ v.counterexample = some ce ∧
      ce.pretty = "=== Counterexample for invariant 'zero' ===\nDepth: 1\nTarget: 1\nTrace:\n" ++
        "  [0] [init] 0\n  [1] [init] 1" ∧
      ¬ MarkRoot (stepLines 0 ce.steps) := by
  refine ⟨_, _, _, rfl, rfl, rfl, rfl, ?_⟩
  intro hmark
  exact (markRoot_iff rfl).mp hmark ⟨.int 1, none⟩ List.mem_cons_self rfl

end StateSpace
