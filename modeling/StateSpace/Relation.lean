import StateSpace.Graph
import StateSpace.Piece.Term

/-!
# Transition relations

A relation has roots, says which actions are enabled in a configuration, and what the successors of
an action in a configuration are. Seen as a graph it has an edge for each successor of each enabled
action.
-/

namespace StateSpace

def Reply.walk {C α : Type} (r : Reply C Fault α) : Except Fault (List α) :=
  r.all.mapError Fault.leaving

structure Relation where
  title : String
  text : String
  roots : List Value
  enabled : Value → Reply Value Fault Action
  execute : Action → Value → Except Fault (List Value)

namespace Relation

/-- The edges for the enabled actions one after the other, each action's successors in canonical
order. The same successor stands there once for every action that leads to it. -/
def edges (r : Relation) (c : Value) : Reply Value Fault (Option Action × Value) :=
  (r.enabled c).bind fun a => return (← r.execute a c).map fun d => (a.label, d)

def successors (r : Relation) (c : Value) : Except Fault (List (Action × List Value)) := do
  let reply := (r.enabled c).bind fun a => return [(a, ← r.execute a c)]
  reply.all

def entered (r : Relation) (c : Value) (a : Action) : Except Fault (List Value) := do
  let found ← r.execute a c
  let _ ← Value.members found
  return found

/-- The set of all successors. Those of one action are entered before the next action is run. -/
def neighbours (r : Relation) (c : Value) : Except Fault (List Value) :=
  return Value.canonical (← ((r.enabled c).bind (r.entered c)).all)

def hasEnabled (r : Relation) (c : Value) : Except Fault Bool := (r.enabled c).nonempty

def isDeadlocked (r : Relation) (c : Value) : Except Fault Bool :=
  return !(← r.hasEnabled c)

def toGraph (r : Relation) : Graph Value Action Fault where
  title := "STR2RG"
  text := "STR2RG(" ++ r.text ++ ")"
  labelled := true
  roots := { items := r.roots }
  edges := r.edges
  neighbours := r.neighbours

def ofPieces (roots : List Value) (pieces : List Piece) : Relation where
  title := "PiecewiseRelation"
  text :=
    "PiecewiseRelation(roots=" ++ toString roots.length ++ ", pieces=" ++
      toString pieces.length ++ ", leaves=" ++ toString (Piece.leavesOf pieces).length ++ ")"
  roots := roots
  enabled c :=
    match Piece.resolve "" pieces c with
    | .ok actions => { items := actions, events := [.enabled actions.length c] }
    | .error e => { items := [], fault := some e }
  execute := Action.execute "PiecewiseRelation"

def requirePieces : List Term → Except Fault (List Piece)
  | [] => .ok []
  | .piece p :: rest => return p :: (← requirePieces rest)
  | t :: _ => .error (.notPiece t.text)

/-- The relation of two functions: one walks the enabled actions, which are values, the other gives
the result of an action in a configuration. -/
def ofFunctions (roots : List Value) (enabled : Value → Except Fault Value)
    (result : Action → Value → Except Fault Value) : Relation where
  title := "FunctionalRelation"
  text := "<FunctionalRelation>"
  roots := roots
  enabled c := .ofExcept do
    let actions ← (← enabled c).elements
    return actions.map .value
  execute a c := do successorsOf (← result a c)

structure Offer where
  condition : Value → Except Fault Bool
  action : Value → Except Fault Action

def takeOffers (c : Value) : List Offer → List Action × Option Fault
  | [] => ([], none)
  | offer :: rest =>
    match offer.condition c with
    | .error e => ([], some e)
    | .ok false => takeOffers c rest
    | .ok true =>
      match offer.action c with
      | .error e => ([], some e)
      | .ok action =>
        let later := takeOffers c rest
        (action :: later.1, later.2)

/-- The relation of a list of offers. A lazy one walks them, looking at an offer only when its
action is asked for; otherwise no action is enabled if any offer fails. -/
def ofOffers (roots : List Value) (offers : List Offer) (isLazy : Bool) : Relation where
  title := "Custom"
  text := "Custom()"
  roots := roots
  enabled c :=
    match takeOffers c offers with
    | (actions, none) => { items := actions }
    | (actions, some e) =>
      if isLazy then { items := actions, fault := some e.leaving }
      else { items := [], fault := some e }
  execute := Action.execute "Custom"

end Relation

end StateSpace
