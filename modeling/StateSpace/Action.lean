import StateSpace.Value.Identity

/-!
# Actions and successors

An effect maps a configuration to a result, and the result is read as a set of successors: null is
none, a list, an open set or a stream is the set of its elements, and any other value is the one
successor. Tuples and sets are common configurations and therefore single successors.

An action is an effect bound to the configuration in which it was enabled, a plain routine, or a
value whose meaning only its relation knows.
-/

namespace StateSpace

structure Routine where
  label : String
  run : Value → Except Fault Value

namespace Routine

def text (r : Routine) : String := "<fn " ++ r.label ++ ">"

def holds (r : Routine) (configuration : Value) : Except Fault Bool :=
  return (← r.run configuration).truthy

end Routine

def successorsOf : Value → Except Fault (List Value)
  | .null => .ok []
  | .openSet items | .list items | .stream _ items => Value.members items
  | v => Value.members [v]

inductive Action where
  | value (v : Value)
  | call (routine : Routine)
  | bound (name : String) (source : Value) (effect : Routine)

namespace Action

def text : Action → String
  | .value v => v.text
  | .call routine => routine.text
  | .bound name source _ => "Action(name=" ++ Text.quoted name ++ ", source=" ++ source.text ++ ")"

def shown : Action → String
  | .value v => v.shown
  | .call routine => routine.text
  | .bound name _ _ => name

/-- What an edge is labelled with; null is no label. -/
def label : Action → Option Action
  | .value .null => none
  | a => some a

/-- Bound actions are told apart by name and source, whatever their effects. -/
def equal : Action → Action → Bool
  | .value v, .value w => v == w
  | .call r, .call s => r.label == s.label
  | .bound n v _, .bound m w _ => n == m && v == w
  | _, _ => false

instance : BEq Action := ⟨equal⟩

def hashKey (name : String) (source : Value) : Except Fault (String × Canon) := do
  source.requireHashable
  return (name, source.canon)

def sameHash (name : String) (source : Value) (name' : String) (source' : Value) :
    Except Fault (Option Bool) := do
  if name == name' && source == source' then
    return some ((← hashKey name source) == (← hashKey name' source'))
  else return none

/-- The successors of a bound action in a configuration, or in its source if none is given. -/
def executeBound (source : Value) (effect : Routine) (configuration : Value) :
    Except Fault (List Value) := do
  let target := match configuration with
    | .null => source
    | c => c
  successorsOf (← effect.run target)

/-- The usual meaning of actions in a relation. A bound action may only be run in the configuration
that it was enabled in; one without a source may be run anywhere. -/
def execute (relation : String) (action : Action) (configuration : Value) :
    Except Fault (List Value) :=
  match action with
  | .bound _ .null effect => executeBound .null effect configuration
  | .bound _ source effect =>
    if source.equals configuration then executeBound source effect configuration
    else .error (.contractViolation action.text configuration source)
  | .call routine => do successorsOf (← routine.run configuration)
  | .value v => .error (.cannotRun relation v.text)

end Action

end StateSpace
