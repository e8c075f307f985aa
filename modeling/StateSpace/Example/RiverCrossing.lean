import StateSpace.Checker

/-!
# Wolf, goat and cabbage

A configuration is the set of those on the far bank. The farmer crosses alone or with one item from
their own bank, and the goat may not be left with the wolf or the cabbage. A crossing that leaves an
unsafe bank is enabled but has no successor. A solution is the counterexample to the claim that not
everyone gets across.
-/

namespace StateSpace.RiverCrossing

def items : List String := ["wolf", "goat", "cabbage"]

def farmer : Value := .str "farmer"

def everyone : List Value := Value.canonical (farmer :: items.map .str)

def isOn (v bank : Value) : Except Fault Bool :=
  match bank with
  | .tuple items | .list items => .ok (items.contains v)
  | .set items | .openSet items => v.memberOf items
  | .map entries | .state _ entries => return (← Value.item? entries v).isSome
  | .str s =>
    match v with
    | .str part => .ok (part == "" || (s.splitOn part).length > 1)
    | v => .error (.needsText v.typeName)
  | bank => .error (.notContainer bank.typeName)

/-- A bank with the farmer is safe, and so is one where the goat is alone or with nothing that it
eats or that eats it. -/
def safeBank (bank : List Value) : Bool :=
  bank.contains farmer || !bank.contains (.str "goat") ||
    (!bank.contains (.str "wolf") && !bank.contains (.str "cabbage"))

def safe (far : Value) : Except Fault Bool :=
  match far with
  | .set items | .openSet items =>
    .ok (safeBank items && safeBank (everyone.filter fun v => !items.contains v))
  | far => .error (.noOperator "-" "frozenset" far.typeName)

def leaveSet (moving items : List Value) : List Value := items.filter fun v => !moving.contains v

def joinSet (moving items : List Value) : List Value := Value.canonical (items ++ moving)

def leave (moving : List Value) : Value → Except Fault Value
  | .set items => .ok (.set (leaveSet moving items))
  | .openSet items => .ok (.openSet (leaveSet moving items))
  | far => .error (.noOperator "-" far.typeName "set")

def join (moving : List Value) : Value → Except Fault Value
  | .set items => .ok (.set (joinSet moving items))
  | .openSet items => .ok (.openSet (joinSet moving items))
  | far => .error (.noOperator "|" far.typeName "set")

def boat (item : Value) : Except Fault (List Value) :=
  match item with
  | .null => .ok [farmer]
  | item => Value.members [farmer, item]

/-- The far bank after a crossing with an item, or with none; nothing if that is unsafe. -/
def cross (item far : Value) : Except Fault Value := do
  let moving ← boat item
  let after ← if ← isOn farmer far then leave moving far else join moving far
  if ← safe after then return after else return .null

def available (item far : Value) : Except Fault Bool :=
  match item with
  | .null => .ok true
  | item => do
    let here ← isOn item far
    return here == (← isOn farmer far)

def crossing (item : Value) : Piece :=
  .leaf ⟨some "crossing", available item⟩
    (some (if item.truthy then "cross with " ++ item.shown else "cross alone"))
    ⟨"crossing", cross item⟩

def puzzle : Model :=
  .guarded [.set []] (crossing .null :: items.map fun i => crossing (.str i))

def unsolved (far : Value) : Except Fault Bool := .ok (far != .set everyone)

structure Transcript where
  output : String := ""
  log : List (Event Value) := []
  solution : Option (List Value) := none

/-- Far more discoveries than there are banks. -/
def fuel : Nat := 100

def stepLine (step : TraceStep) : String :=
  let action := match step.action with
    | some a => a.shown
    | none => "None"
  "  " ++ action ++ ": far bank = " ++
    (Value.list (step.configuration.elements?.getD [])).text ++ "\n"

def report : Transcript :=
  match Checker.ofSettings {} with
  | .error _ => {}
  | .ok k =>
    match k.checkAll fuel puzzle [⟨"unsolved", unsolved⟩] with
    | some ⟨run, .ok verdict⟩ =>
      match verdict.counterexample, verdict.summary with
      | some ce, _ =>
        { output := "Solved in " ++ toString ce.depth ++ " crossings:\n" ++
            String.join ((ce.steps.drop 1).map stepLine)
          log := run.log
          solution := some ce.trace }
      | none, .ok summary => { output := "No solution: " ++ summary ++ "\n", log := run.log }
      | none, .error _ => { log := run.log }
    | _ => {}

end StateSpace.RiverCrossing
