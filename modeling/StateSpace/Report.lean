import StateSpace.Collection
import StateSpace.Lineage
import StateSpace.Model
import StateSpace.Verify

/-!
# Reports

The wording of explorations, counterexamples, verdicts, failures and log records over values.
-/

namespace StateSpace

abbrev ValueSearch := Search Value Canon Action Fault
abbrev ValueRun := Run Value Canon Action Fault
abbrev ValueExploration := Exploration Value Canon Action
abbrev ValueFailure := Failure Value Canon Action Fault
abbrev ValueCounterexample := Counterexample Value Action
abbrev ValueVerdict := Verdict Value Action
abbrev ValuePredicate := Predicate Value Fault

/-- The whole number that is nearest to a quotient, the even one if there are two. -/
def nearest (n d : Nat) : Nat :=
  if d < 2 * (n % d) || 2 * (n % d) == d && n / d % 2 == 1 then n / d + 1 else n / d

def secondsText (t : Rat) : String :=
  let thousandths := nearest (t.num.natAbs * 1000) t.den
  (if t.num < 0 then "-" else "") ++ toString (thousandths / 1000) ++ "." ++
    Decimal.fraction thousandths 3

def reasonText (reason : Option String) : String := reason.getD "None"

namespace Exploration

def status (x : ValueExploration) : String :=
  if x.complete then "complete"
  else if x.budgetExceeded then "budget exceeded (" ++ reasonText x.budgetReason ++ ")"
  else "stopped early"

def summary (x : ValueExploration) : String :=
  "\n".intercalate
    ["Status: " ++ x.status,
     "Configurations: " ++ toString x.store.size,
     "Transitions explored: " ++ toString x.transitions,
     "Max depth reached: " ++ toString x.maxDepth,
     "Elapsed: " ++ secondsText x.elapsed ++ "s"]

end Exploration

namespace Counterexample

def stepLines (place : Nat) : List TraceStep → List String
  | [] => []
  | step :: rest => ("  [" ++ toString place ++ "] " ++ step.text) :: stepLines (place + 1) rest

def pretty (ce : ValueCounterexample) : String :=
  "\n".intercalate
    (["=== Counterexample for " ++ ce.kind ++ " '" ++ ce.property ++ "' ===",
      "Depth: " ++ toString ce.depth,
      "Target: " ++ ce.configuration.text,
      "Trace:"] ++ stepLines 0 ce.steps)

end Counterexample

namespace Verdict

/-- The verdict in one line. A violation or a deadlock without a counterexample has none. -/
def summary (v : ValueVerdict) : Except Fault String :=
  let found (what : String) : Except Fault String :=
    match v.counterexample with
    | none => .error .noCounterexample
    | some ce => .ok ("'" ++ v.property ++ "' " ++ what ++ " at " ++ ce.configuration.text ++
        " (depth " ++ toString ce.depth ++ ", " ++ toString v.configurations ++
        " configurations explored)")
  match v.status with
  | .holds => .ok ("'" ++ v.property ++ "' holds for all " ++ toString v.configurations ++
      " reachable configurations")
  | .budgetExceeded => .ok ("'" ++ v.property ++ "' undecided: budget exceeded (" ++
      reasonText v.budgetReason ++ ") after " ++ toString v.configurations ++ " configurations")
  | .violated => found "violated"
  | .deadlock => found "deadlock"

end Verdict

namespace Failure

/-- The fault that is told of, if it is one of the model. Those that are raised inside a run leave
it with the call that it was asked by. -/
def thrown? : ValueFailure → Option Fault
  | .fault cause => some cause.leaving
  | .asked cause => some cause
  | _ => none

def report : ValueFailure → Report
  | .fault cause => cause.leaving.report
  | .asked cause => cause.report
  | .unreachable c => (Fault.unreachable c).report
  | .budget reason _ => .check (.budgetExceeded reason)
  | .predicate name c cause => .check (.predicateRaised name c cause.kind cause.message)

def cause? : ValueFailure → Option Fault
  | .fault cause => cause.leaving.cause?
  | .asked cause => cause.cause?
  | .predicate _ _ cause => some cause
  | _ => none

end Failure

inductive Level where
  | debug
  | info
  | warning
deriving DecidableEq, Repr

namespace Level

def name : Level → String
  | .debug => "DEBUG"
  | .info => "INFO"
  | .warning => "WARNING"

def weight : Level → Nat
  | .debug => 10
  | .info => 20
  | .warning => 30

def ofName? (s : String) : Option Level := [debug, info, warning].find? fun l => l.name == s

end Level

namespace Event

def level : Event Value → Level
  | .started _ _ | .finished _ _ _ | .enabled _ _ | .holds _ _ => .debug
  | .progress _ _ _ | .violated _ _ | .deadlocked _ => .info
  | .budgetExceeded _ _ => .warning

def source : Event Value → String
  | .started _ _ | .progress _ _ _ | .budgetExceeded _ _ | .finished _ _ _ =>
    "str_checker.exploration"
  | .enabled _ _ => "str_checker.relation"
  | .violated _ _ | .deadlocked _ | .holds _ _ => "str_checker.verifier"

def message : Event Value → String
  | .started graph strategy =>
    "Exploration of " ++ graph ++ " started (strategy=" ++ strategy ++ ")"
  | .progress n frontier depth =>
    toString n ++ " configurations discovered, frontier " ++ toString frontier ++ ", depth " ++
      toString depth
  | .budgetExceeded n reason =>
    "Exploration budget exceeded after " ++ toString n ++ " configurations: " ++ reason
  | .finished n transitions elapsed =>
    "Exploration finished: " ++ toString n ++ " configurations, " ++ toString transitions ++
      " transitions in " ++ secondsText elapsed ++ "s"
  | .enabled n c => toString n ++ " action(s) enabled in " ++ c.text
  | .violated property c =>
    "Invariant '" ++ property ++ "' violated at " ++ c.fingerprint ++ ": " ++ c.text
  | .deadlocked c => "Deadlock at " ++ c.fingerprint ++ ": " ++ c.text
  | .holds property n =>
    "'" ++ property ++ "' holds for all " ++ toString n ++ " reachable configurations"

end Event

end StateSpace
