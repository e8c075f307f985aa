import StateSpace.Action
import StateSpace.Forest
import StateSpace.State

/-!
# Lineages

A lineage is a discovery forest of configurations whose keys are made by a key function, and a trace
is a path in it from a root to a configuration.
-/

namespace StateSpace

abbrev TraceStep := Step Value Action

namespace Step

def text (s : TraceStep) : String :=
  match s.action with
  | some action => " --[" ++ action.shown ++ "]--> " ++ s.configuration.text
  | none => "[init] " ++ s.configuration.text

def sameAction : Option Action → Option Action → Bool
  | none, none => true
  | some a, some b => a == b
  | _, _ => false

def equal (s t : TraceStep) : Bool :=
  s.configuration == t.configuration && sameAction s.action t.action

end Step

structure Lineage where
  key : Option KeyFunction
  forest : Forest Canon Value Action

namespace Lineage

def empty (key : Option KeyFunction) : Lineage := ⟨key, .empty⟩

def text (l : Lineage) : String :=
  "ParentTracer(roots=" ++ toString l.forest.roots.length ++ ", records=" ++
    toString l.forest.numChildren ++ ")"

def addRoot (l : Lineage) (c : Value) : Except Fault (Lineage × Bool) := do
  let k ← identify l.key c
  return ({ l with forest := l.forest.addRoot k c }, !l.forest.contains k)

/-- Add the discovery of a child, and tell whether it was new. The parent is looked at only if the
child is new. -/
def record (l : Lineage) (child parent : Value) (action : Option Action) :
    Except Fault (Lineage × Bool) := do
  let k ← identify l.key child
  if l.forest.contains k then return (l, false)
  let parentKey ← identify l.key parent
  match l.forest.record? k parent parentKey action with
  | some forest => return ({ l with forest := forest }, true)
  | none => .error (.unreachable parent)

def contains (l : Lineage) (c : Value) : Except Fault Bool :=
  return l.forest.contains (← identify l.key c)

def isRoot (l : Lineage) (c : Value) : Except Fault Bool :=
  return l.forest.isRoot (← identify l.key c)

def parentOf (l : Lineage) (c : Value) : Except Fault (Option TraceStep) := do
  match l.forest.origin? (← identify l.key c) with
  | some (.child parent _ action) => return some ⟨parent, action⟩
  | some (.root _) => return none
  | none => .error (.unreachable c)

def steps (l : Lineage) (c : Value) : Except Fault (List TraceStep) := do
  match l.forest.steps? (← identify l.key c) c with
  | some steps => return steps
  | none => .error (.unreachable c)

/-- The number of steps from a root; none at all count as one less than zero. -/
def depthOf (steps : List TraceStep) : Int := steps.length - 1

def depth (l : Lineage) (c : Value) : Except Fault Int :=
  return depthOf (← l.steps c)

end Lineage

end StateSpace
