import StateSpace.Run

/-!
# Checking invariants and deadlock freedom

An invariant is checked at every configuration when it is discovered, and the first one that breaks
it stops the run. Deadlocks are looked for after the exploration, in the order of discovery. What is
found comes with a path that leads to it.
-/

namespace StateSpace

inductive Status where
  | holds
  | violated
  | deadlock
  | budgetExceeded
deriving DecidableEq, Repr

namespace Status

def name : Status → String
  | .holds => "HOLDS"
  | .violated => "VIOLATED"
  | .deadlock => "DEADLOCK"
  | .budgetExceeded => "BUDGET_EXCEEDED"

def all : List Status := [.holds, .violated, .deadlock, .budgetExceeded]

def ofName? (s : String) : Option Status := all.find? fun status => status.name == s

end Status

structure Counterexample (C A : Type) where
  kind : String
  property : String
  configuration : C
  steps : List (Step C A)

namespace Counterexample

variable {C A : Type}

def trace (ce : Counterexample C A) : List C := ce.steps.map (·.configuration)

def depth (ce : Counterexample C A) : Int := ce.steps.length - 1

end Counterexample

structure Verdict (C A : Type) where
  status : Status
  property : String
  configurations : Int
  transitions : Int
  counterexample : Option (Counterexample C A)
  elapsed : Rat
  budgetReason : Option String

namespace Verdict

variable {C A : Type}

def holds (v : Verdict C A) : Bool := v.status = .holds

def isConclusive (v : Verdict C A) : Bool := v.status ≠ .budgetExceeded

def violation (v : Verdict C A) : Option C := v.counterexample.map (·.configuration)

def trace (v : Verdict C A) : List C :=
  match v.counterexample with
  | some ce => ce.trace
  | none => []

end Verdict

structure Predicate (C E : Type) where
  name : String
  holds : C → Except E Bool

namespace Predicate

variable {C E : Type}

def firstFailing (c : C) : List (Predicate C E) → Option (String × Option E)
  | [] => none
  | p :: rest =>
    match p.holds c with
    | .ok true => firstFailing c rest
    | .ok false => some (p.name, none)
    | .error e => some (p.name, some e)

/-- The names of the predicates; no predicates are called true. -/
def label (predicates : List (Predicate C E)) : String :=
  let names := ", ".intercalate (predicates.map (·.name))
  if names = "" then "true" else names

def put (p : Predicate C E) : List (Predicate C E) → List (Predicate C E)
  | [] => [p]
  | q :: rest => if q.name = p.name then p :: rest else q :: put p rest

/-- Predicates with different names; a repeated name keeps its first place and takes the last
predicate. -/
def collect (predicates : List (Predicate C E)) : List (Predicate C E) :=
  predicates.foldl (fun acc p => put p acc) []

end Predicate

namespace Search

variable {C K A E : Type} [DecidableEq K]

def conclude (r : Run C K A E) (property : String) : Run C K A E × Verdict C A :=
  let verdict (status : Status) : Verdict C A :=
    { status := status
      property := property
      configurations := r.store.size
      transitions := r.transitions
      counterexample := none
      elapsed := r.elapsed
      budgetReason := r.budgetReason }
  match r.budgetReason with
  | some _ => (r, verdict .budgetExceeded)
  | none => (r.note [.holds property r.store.size], verdict .holds)

def traceback (s : Search C K A E) (forest : Forest K C A) (c : C) :
    Except (Failure C K A E) (List (Step C A)) :=
  match s.identify c with
  | .error e => .error (.asked e)
  | .ok k =>
    match forest.steps? k c with
    | none => .error (.unreachable c)
    | some steps => .ok steps

def refute (s : Search C K A E) (r : Run C K A E) (status : Status) (kind property : String)
    (c : C) : Except (Failure C K A E) (Verdict C A) :=
  (s.traceback r.forest c).map fun steps =>
    { status := status
      property := property
      configurations := r.store.size
      transitions := r.transitions
      counterexample := some ⟨kind, property, c, steps⟩
      elapsed := r.elapsed
      budgetReason := none }

/-- What a signal decides about predicates. A discovery at which they all hold decides nothing. -/
def settle (s : Search C K A E) (predicates : List (Predicate C E)) (r : Run C K A E) :
    Signal C K A E → Option (Run C K A E × Except (Failure C K A E) (Verdict C A))
  | .failed failure => some (r, .error failure)
  | .done =>
    let concluded := conclude r (Predicate.label predicates)
    some (concluded.1, .ok concluded.2)
  | .discovered c =>
    match Predicate.firstFailing c predicates with
    | none => none
    | some (name, some e) => some ((s.look r).stop, .error (.predicate name c e))
    | some (name, none) =>
      let r := (s.look r).stop.note [.violated name c]
      some (r, s.refute r .violated "invariant" name c)

/-- Explore, and check the predicates at every discovery. There is no answer if that takes more
discoveries than the fuel allows. -/
def checkAll (s : Search C K A E) (predicates : List (Predicate C E)) :
    Nat → Run C K A E → Option (Run C K A E × Except (Failure C K A E) (Verdict C A))
  | 0, _ => none
  | fuel + 1, r =>
    match s.next r with
    | (r, signal) =>
      match s.settle predicates r signal with
      | none => checkAll s predicates fuel r
      | some answer => some answer

/-- The first of the configurations in which no action is enabled. Each question moves the clock and
may write to the log. -/
def findDeadlock (s : Search C K A E) (enabled : C → Reply C E A) (r : Run C K A E) :
    List C → Run C K A E × Except E (Option C)
  | [] => (r, .ok none)
  | c :: rest =>
    let reply := enabled c
    let r := s.hear r reply
    match reply.nonempty with
    | .error e => (r, .error e)
    | .ok true => findDeadlock s enabled r rest
    | .ok false => (r, .ok (some c))

def deadlockFreedom : String := "deadlock-freedom"

def checkDeadlockFree (s : Search C K A E) (enabled : C → Reply C E A) (fuel : Nat)
    (r : Run C K A E) : Option (Run C K A E × Except (Failure C K A E) (Verdict C A)) :=
  match s.exhaust fuel r with
  | none => none
  | some (r, some failure) => some (r, .error failure)
  | some (r, none) =>
    match s.findDeadlock enabled r r.store.toList with
    | (r, .error e) => some (r, .error (.asked e))
    | (r, .ok (some c)) =>
      let r := r.note [.deadlocked c]
      some (r, s.refute r .deadlock "deadlock" deadlockFreedom c)
    | (r, .ok none) =>
      let concluded := conclude r deadlockFreedom
      some (concluded.1, .ok concluded.2)

end Search

end StateSpace
