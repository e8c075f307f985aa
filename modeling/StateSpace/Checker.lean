import StateSpace.Report

/-!
# Checkers

A checker joins a plan with a key function and a clock, and explores and checks models. Each of its
answers comes with the run that it was read off, which holds the log.
-/

namespace StateSpace

structure Checker where
  plan : Plan
  key : Option KeyFunction
  start : Rat
  /-- How far the clock moves when the model is asked. -/
  tick : Rat

structure Answer (α : Type) where
  run : ValueRun
  result : Except ValueFailure α

namespace Checker

def ofSettings (settings : Settings) : Except Fault Checker := do
  return ⟨← settings.plan, none, 0, 0⟩

def search (k : Checker) (graph : ValueGraph) : ValueSearch where
  graph := graph
  plan := k.plan
  identify := identify k.key
  clock := .steady k.tick

def initial (k : Checker) : ValueRun := .initial k.start

def refuse {α : Type} (k : Checker) (f : Fault) : Answer α := ⟨k.initial, .error (.asked f)⟩

def explore (k : Checker) (fuel : Nat) (m : Model) : Option (Answer ValueExploration) :=
  match m.toGraph with
  | .error f => some (k.refuse f)
  | .ok graph =>
    match (k.search graph).exhaust fuel k.initial with
    | none => none
    | some (run, some failure) => some ⟨run, .error failure⟩
    | some (run, none) => some ⟨run, .ok run.outcome⟩

def discoveries (k : Checker) (n : Nat) (m : Model) : Answer (List Value) :=
  match m.toGraph with
  | .error f => k.refuse f
  | .ok graph =>
    match (k.search graph).take n k.initial with
    | (run, _, some failure) => ⟨run, .error failure⟩
    | (run, found, none) => ⟨run, .ok found⟩

def checkAll (k : Checker) (fuel : Nat) (m : Model) (predicates : List ValuePredicate) :
    Option (Answer ValueVerdict) :=
  match m.toGraph with
  | .error f => some (k.refuse f)
  | .ok graph =>
    ((k.search graph).checkAll (Predicate.collect predicates) fuel k.initial).map fun a => ⟨a.1, a.2⟩

def checkDeadlockFree (k : Checker) (fuel : Nat) (m : Model) : Option (Answer ValueVerdict) :=
  match m.toRelation with
  | .error f => some (k.refuse f)
  | .ok r =>
    ((k.search r.toGraph).checkDeadlockFree r.enabled fuel k.initial).map fun a => ⟨a.1, a.2⟩

end Checker

namespace Predicate

def ofRoutine (name : String) (r : Routine) : ValuePredicate := ⟨name, r.holds⟩

/-- A value where a predicate is expected can only be refused. -/
def ofValue (name : String) (v : Value) : ValuePredicate :=
  ⟨name, fun _ => .error (.notCallable v.typeName)⟩

def chooseName (given own : Option String) : String := (given.or own).getD "predicate"

end Predicate

end StateSpace
