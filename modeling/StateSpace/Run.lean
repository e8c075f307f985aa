import StateSpace.Forest
import StateSpace.Graph
import StateSpace.Settings
import StateSpace.Store

/-!
# Exploration runs

A run explores a graph one discovery at a time. It first meets the roots, then takes configurations
off the frontier and meets their edges; a target whose key is not stored yet is stored, recorded in
the forest and put on the frontier. `Search.next` goes on to the next discovery, `Search.exhaust`
repeats it. Between two discoveries a run can be looked at, and it can be stopped for good.

A run asks the key function several times for a configuration that is new to it, and each time it
may fail; `Answers` tells what it says. `Search.next` is the case in which there is one answer for
each configuration.

Time is counted in seconds. It passes between any two looks at the clock, and while the graph is
asked for its roots or its edges, provided that the question reaches the model.
-/

namespace StateSpace

/-- How time passes, by the number of moments that came before: looks at the clock and questions to
the model. -/
structure Clock where
  look : Nat → Rat
  question : Nat → Rat

def Clock.steady (tick : Rat) : Clock where
  look _ := 0
  question _ := tick

structure Search (C K A E : Type) where
  graph : Graph C A E
  plan : Plan
  identify : C → Except E (Key K)
  clock : Clock

structure Waiting (C K : Type) where
  key : Key K
  configuration : C
  depth : Nat

inductive Phase (C K A E : Type) where
  | idle
  | roots (pending : List C) (fault : Option E)
  | edges (source : Waiting C K) (pending : List (Option A × C)) (fault : Option E)
  | closed

structure Run (C K A E : Type) where
  store : Store K C
  forest : Forest K C A
  /-- The configurations still to be expanded, the next one first. -/
  frontier : List (Waiting C K)
  phase : Phase C K A E
  transitions : Nat
  maxDepth : Nat
  budgetReason : Option String
  finished : Bool
  started : Option Rat
  stopped : Option Rat
  now : Rat
  moments : Nat
  log : List (Event C)

structure Exploration (C K A : Type) where
  store : Store K C
  forest : Forest K C A
  complete : Bool
  transitions : Int
  maxDepth : Int
  elapsed : Rat
  budgetExceeded : Bool
  budgetReason : Option String

inductive Failure (C K A E : Type) where
  /-- Raised inside the run, which is a walk. -/
  | fault (cause : E)
  /-- Raised by a question that is put outside a run. -/
  | asked (cause : E)
  | unreachable (configuration : C)
  | budget (reason : String) (found : Exploration C K A)
  | predicate (name : String) (configuration : C) (cause : E)

/-- What the key function answers at each point of a run at which it is asked. A configuration that
is met is looked up in the store; if its key is new there, the configuration is recorded in the
forest, for which its source may be asked for as well, and then stored. No two of these looks are
made at one point of a run, so that a key function may answer as it likes each time. -/
structure Answers (C K A E : Type) where
  lookup : Run C K A E → C → Except E (Key K)
  record : Run C K A E → C → Except E (Key K)
  parent : Run C K A E → Waiting C K → Except E (Key K)
  store : Run C K A E → C → Except E (Key K)

inductive Signal (C K A E : Type) where
  | discovered (configuration : C)
  | done
  | failed (failure : Failure C K A E)

namespace Run

variable {C K A E : Type}

def initial (now : Rat) : Run C K A E where
  store := ⟨[]⟩
  forest := ⟨[]⟩
  frontier := []
  phase := .idle
  transitions := 0
  maxDepth := 0
  budgetReason := none
  finished := false
  started := none
  stopped := none
  now := now
  moments := 0
  log := []

def elapsed (r : Run C K A E) : Rat :=
  match r.started with
  | none => 0
  | some started => r.stopped.getD r.now - started

def complete (r : Run C K A E) : Bool := r.finished && r.budgetReason.isNone

def outcome (r : Run C K A E) : Exploration C K A where
  store := r.store
  forest := r.forest
  complete := r.complete
  transitions := r.transitions
  maxDepth := r.maxDepth
  elapsed := r.elapsed
  budgetExceeded := r.budgetReason.isSome
  budgetReason := r.budgetReason

def note (r : Run C K A E) (events : List (Event C)) : Run C K A E :=
  { r with log := r.log ++ events }

def close (r : Run C K A E) : Run C K A E := { r with phase := .closed }

/-- Abandon a run. One that has not begun is not closed. -/
def stop (r : Run C K A E) : Run C K A E :=
  let phase := match r.phase with
    | .idle => .idle
    | _ => .closed
  { r with phase := phase, stopped := some (r.stopped.getD r.now) }

def count (r : Run C K A E) : Run C K A E := { r with transitions := r.transitions + 1 }

def advance (r : Run C K A E) (time : Rat) : Run C K A E := { r with now := r.now + time }

end Run

namespace Search

variable {C K A E : Type} [DecidableEq K]

/-- The answers of a key function that has one for each configuration. -/
def answers (s : Search C K A E) : Answers C K A E where
  lookup _ := s.identify
  record _ := s.identify
  parent _ source := .ok source.key
  store _ := s.identify

def look (s : Search C K A E) (r : Run C K A E) : Run C K A E :=
  { r with now := r.now + s.clock.look r.moments, moments := r.moments + 1 }

def hear {α : Type} (s : Search C K A E) (r : Run C K A E) (reply : Reply C E α) : Run C K A E :=
  { r with
    now := r.now + reply.time (s.clock.question r.moments)
    moments := r.moments + 1
    log := r.log ++ reply.events }

def outOfTime (s : Search C K A E) (r : Run C K A E) : Option String :=
  match s.plan.maxSeconds with
  | none => none
  | some limit =>
    if limit.quantity.below r.elapsed then some ("more than " ++ limit.text ++ "s") else none

/-- The number of configurations is looked at before the time. -/
def outOfBudget (s : Search C K A E) (r : Run C K A E) : Option String :=
  match s.plan.maxConfigurations with
  | none => s.outOfTime r
  | some limit =>
    if limit.quantity.le (.ofInt r.store.size) then
      some ("more than " ++ limit.text ++ " configurations")
    else s.outOfTime r

def exceed (s : Search C K A E) (r : Run C K A E) (reason : String) :
    Run C K A E × Signal C K A E :=
  let r := s.look r
  let ended : Run C K A E :=
    { r with
      budgetReason := some reason
      stopped := some r.now
      phase := .closed
      log := r.log ++ [.budgetExceeded r.store.size reason] }
  (ended, if s.plan.raiseOnBudget then .failed (.budget reason ended.outcome) else .done)

def enqueue (strategy : Strategy) (w : Waiting C K) (frontier : List (Waiting C K)) :
    List (Waiting C K) :=
  match strategy with
  | .breadthFirst => frontier ++ [w]
  | .depthFirst => w :: frontier

def insert (s : Search C K A E) (r : Run C K A E) (w : Waiting C K) : Run C K A E :=
  let store := r.store.insert w.key w.configuration
  let frontier := enqueue s.plan.strategy w r.frontier
  let maxDepth := max r.maxDepth w.depth
  { r with
    store := store
    frontier := frontier
    maxDepth := maxDepth
    log := r.log ++
      (if s.plan.logEvery.divides store.size then
        [.progress store.size frontier.length maxDepth]
      else []) }

def recordRoot (a : Answers C K A E) (r : Run C K A E) (c : C) :
    Except (Failure C K A E) (Forest K C A) :=
  match a.record r c with
  | .error e => .error (.fault e)
  | .ok k => .ok (r.forest.addRoot k c)

/-- Record the target of an edge in the forest. The source is asked for only if the target is new
there. -/
def recordEdge (a : Answers C K A E) (r : Run C K A E) (source : Waiting C K)
    (edge : Option A × C) : Except (Failure C K A E) (Forest K C A) :=
  match a.record r edge.2 with
  | .error e => .error (.fault e)
  | .ok k =>
    if r.forest.contains k then .ok r.forest
    else
      match a.parent r source with
      | .error e => .error (.fault e)
      | .ok parentKey =>
        match r.forest.record? k source.configuration parentKey edge.1 with
        | none => .error (.unreachable source.configuration)
        | some forest => .ok forest

/-- Store what was recorded. A key that fails now leaves the forest as it has become. -/
def adopt (s : Search C K A E) (a : Answers C K A E) (r : Run C K A E)
    (recorded : Except (Failure C K A E) (Forest K C A)) (c : C) (depth : Nat)
    (phase : Phase C K A E) : Run C K A E × Signal C K A E :=
  match recorded with
  | .error failure => (r.close, .failed failure)
  | .ok forest =>
    let grown : Run C K A E := { r with forest := forest }
    match a.store grown c with
    | .error e => (grown.close, .failed (.fault e))
    | .ok k => ({ s.insert grown ⟨k, c, depth⟩ with phase := phase }, .discovered c)

/-- Meet a configuration, which is recorded and stored if its key is new. There is no signal if it
is stored already. -/
def meet (s : Search C K A E) (a : Answers C K A E) (r : Run C K A E) (c : C)
    (record : Run C K A E → Except (Failure C K A E) (Forest K C A)) (depth : Nat)
    (phase : Phase C K A E) : Run C K A E × Option (Signal C K A E) :=
  match a.lookup r c with
  | .error e => (r.close, some (.failed (.fault e)))
  | .ok k =>
    if r.store.contains k then ({ r with phase := phase }, none)
    else
      let r := s.look r
      match s.outOfBudget r with
      | some reason =>
        let ended := s.exceed r reason
        (ended.1, some ended.2)
      | none =>
        let met := s.adopt a r (record r) c depth phase
        (met.1, some met.2)

def meetRoot (s : Search C K A E) (a : Answers C K A E) (r : Run C K A E) (c : C) (rest : List C)
    (fault : Option E) : Run C K A E × Option (Signal C K A E) :=
  s.meet a r c (recordRoot a · c) 0 (.roots rest fault)

def meetEdge (s : Search C K A E) (a : Answers C K A E) (r : Run C K A E) (source : Waiting C K)
    (edge : Option A × C) (rest : List (Option A × C)) (fault : Option E) :
    Run C K A E × Option (Signal C K A E) :=
  s.meet a r.count edge.2 (recordEdge a · source edge) (source.depth + 1)
    (.edges source rest fault)

def meetEdges (s : Search C K A E) (a : Answers C K A E) (source : Waiting C K)
    (fault : Option E) (r : Run C K A E) :
    List (Option A × C) → Run C K A E × Option (Signal C K A E)
  | [] =>
    match fault with
    | some e => (r.close, some (.failed (.fault e)))
    | none => (r, none)
  | edge :: rest =>
    match s.meetEdge a r source edge rest fault with
    | (r, some signal) => (r, some signal)
    | (r, none) => meetEdges s a source fault r rest

def finish (s : Search C K A E) (r : Run C K A E) : Run C K A E :=
  let r := s.look r
  let ended : Run C K A E :=
    { r with finished := true, stopped := some r.now, phase := .closed }
  ended.note [.finished r.store.size r.transitions ended.elapsed]

def expand (s : Search C K A E) (r : Run C K A E) (source : Waiting C K)
    (rest : List (Waiting C K)) : Run C K A E :=
  let reply := s.graph.edges source.configuration
  { s.hear r reply with frontier := rest, phase := .edges source reply.items reply.fault }

/-- Work off the frontier, which is given once more as a list, up to the next signal. -/
def workOff (s : Search C K A E) (a : Answers C K A E) (r : Run C K A E) :
    List (Waiting C K) → Run C K A E × Signal C K A E
  | [] => (s.finish r, .done)
  | source :: rest =>
    let r := s.look r
    match s.outOfTime r with
    | some reason => s.exceed r reason
    | none =>
      let reply := s.graph.edges source.configuration
      match s.meetEdges a source reply.fault (s.expand r source rest) reply.items with
      | (r, some signal) => (r, signal)
      | (r, none) => workOff s a r rest

def meetRoots (s : Search C K A E) (a : Answers C K A E) (fault : Option E) (r : Run C K A E) :
    List C → Run C K A E × Signal C K A E
  | [] =>
    match fault with
    | some e => (r.close, .failed (.fault e))
    | none => s.workOff a r r.frontier
  | c :: rest =>
    match s.meetRoot a r c rest fault with
    | (r, some signal) => (r, signal)
    | (r, none) => meetRoots s a fault r rest

/-- Begin a run. The time is read before the graph is asked for its roots. -/
def begin (s : Search C K A E) (r : Run C K A E) : Run C K A E :=
  let r := s.look r
  let started : Run C K A E :=
    { r with
      started := some r.now
      phase := .roots s.graph.roots.items s.graph.roots.fault
      log := r.log ++ [.started s.graph.text s.plan.strategy.name] }
  s.hear started s.graph.roots

def nextWith (s : Search C K A E) (a : Answers C K A E) (r : Run C K A E) :
    Run C K A E × Signal C K A E :=
  match r.phase with
  | .closed => (r, .done)
  | .idle => s.meetRoots a s.graph.roots.fault (s.begin r) s.graph.roots.items
  | .roots pending fault => s.meetRoots a fault r pending
  | .edges source pending fault =>
    match s.meetEdges a source fault r pending with
    | (r, some signal) => (r, signal)
    | (r, none) => s.workOff a r r.frontier

def next (s : Search C K A E) : Run C K A E → Run C K A E × Signal C K A E :=
  s.nextWith s.answers

/-- Go on until nothing more is discovered. There is no answer if that takes more discoveries than
the fuel allows. -/
def exhaustWith (s : Search C K A E) (a : Answers C K A E) : Nat → Run C K A E →
    Option (Run C K A E × Option (Failure C K A E))
  | 0, _ => none
  | fuel + 1, r =>
    match s.nextWith a r with
    | (r, .discovered _) => exhaustWith s a fuel r
    | (r, .done) => some (r, none)
    | (r, .failed failure) => some (r, some failure)

def exhaust (s : Search C K A E) : Nat → Run C K A E →
    Option (Run C K A E × Option (Failure C K A E)) :=
  s.exhaustWith s.answers

def take (s : Search C K A E) : Nat → Run C K A E →
    Run C K A E × List C × Option (Failure C K A E)
  | 0, r => (r, [], none)
  | n + 1, r =>
    match s.next r with
    | (r, .discovered c) =>
      let later := take s n r
      (later.1, c :: later.2.1, later.2.2)
    | (r, .done) => (r, [], none)
    | (r, .failed failure) => (r, [], some failure)

end Search

end StateSpace
