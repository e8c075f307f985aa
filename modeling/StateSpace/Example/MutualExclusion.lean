import StateSpace.Checker

/-!
# Two processes and a critical section

Alice and Bob each enter and leave a critical section. In the simple variant they do so on their
own, and both can be inside at once. In the waiting variant a process announces itself first and
enters only when the other is outside.
-/

namespace StateSpace.MutualExclusion

def itemNamed (v : Value) (name : String) : Except Fault Value :=
  match v with
  | .state _ entries | .map entries => Value.item entries (.str name)
  | .tuple _ | .list _ | .str _ => .error (.needsIndex v.typeName)
  | v => .error (.notSubscriptable v.typeName)

def isAt (name place : String) (s : Value) : Except Fault Bool :=
  return (← State.member s name) == .str place

def put (process : String) (place : Value) (s : Value) : Except Fault Value :=
  match s with
  | .state _ vars => State.change vars [(process, place)]
  | s => .error (State.refusal s "with_")

def move (process : String) (source target : Value) (condition : Value → Except Fault Bool) :
    Piece :=
  .leaf
    ⟨some process, fun s => do
      if (← itemNamed s process) == source then condition s else return false⟩
    (some (process ++ ":" ++ source.shown ++ "->" ++ target.shown))
    ⟨process, put process target⟩

def freely (_ : Value) : Except Fault Bool := .ok true

def whileOutside (other : String) (s : Value) : Except Fault Bool := return !(← isAt other "C" s)

def idle : Value := .str "I"
def waitingFor : Value := .str "W"
def critical : Value := .str "C"

def root : Value := .state .written [(.str "a", idle), (.str "b", idle)]

def simple : Model :=
  .guarded [root]
    [move "a" idle critical freely, move "a" critical idle freely,
     move "b" idle critical freely, move "b" critical idle freely]

def waiting : Model :=
  .guarded [root]
    [move "a" idle waitingFor freely, move "a" waitingFor critical (whileOutside "b"),
     move "a" critical idle freely,
     move "b" idle waitingFor freely, move "b" waitingFor critical (whileOutside "a"),
     move "b" critical idle freely]

/-- Not both processes are in their critical sections. The second is looked at only if the first
is. -/
def exclusive (s : Value) : Except Fault Bool := do
  if ← isAt "a" "C" s then return !(← isAt "b" "C" s) else return true

structure Transcript where
  output : String := ""
  log : List (Event Value) := []
  failures : Nat := 0

/-- Far more discoveries than any of the variants makes. -/
def fuel : Nat := 100

def describe (k : Checker) (t : Transcript) (name : String) (m : Model) : Transcript :=
  match k.checkAll fuel m [⟨"mutual_exclusion", exclusive⟩], k.checkDeadlockFree fuel m with
  | some ⟨run, .ok invariant⟩, some ⟨deadlockRun, .ok deadlock⟩ =>
    match invariant.summary, deadlock.summary with
    | .ok first, .ok second =>
      let found := match invariant.counterexample with
        | some ce => ce.pretty ++ "\n"
        | none => ""
      { output := t.output ++ "[" ++ name ++ "] " ++ first ++ "\n" ++ found ++
          "[" ++ name ++ "] " ++ second ++ "\n"
        log := t.log ++ run.log ++ deadlockRun.log
        failures := t.failures + (if invariant.counterexample.isSome then 1 else 0) }
    | _, _ => t
  | _, _ => t

def report : Transcript :=
  match Checker.ofSettings {} with
  | .ok k => describe k (describe k {} "simple" simple) "waiting" waiting
  | .error _ => {}

end StateSpace.MutualExclusion
