import StateSpace.Relation
import StateSpace.State

/-!
# Models

What can be handed to an exploration: a relation, a graph, the graph of a relation, or a value that
is neither. Explicit graphs are given by roots and an adjacency; the targets of a configuration are
a set. Plain and labelled graphs list the edges of a configuration in the order in which they are
given and compare configurations by equality only.
-/

namespace StateSpace

abbrev ValueGraph := Graph Value Action Fault

abbrev Adjacency := List (Value × List Value)

namespace Adjacency

/-- Add the targets of a source; an equal source keeps its place and takes the new targets. -/
def put (adjacency : Adjacency) (source : Value) (targets : List Value) : Adjacency :=
  match adjacency with
  | [] => [(source, targets)]
  | (s, ts) :: rest =>
    if s == source then (s, targets) :: rest else (s, ts) :: put rest source targets

def targets (adjacency : Adjacency) (c : Value) : List Value :=
  match adjacency.find? fun e => e.1 == c with
  | some e => e.2
  | none => []

def numEdges (adjacency : Adjacency) : Nat := (adjacency.flatMap (·.2)).length

def enter (adjacency : Adjacency) (source : Value) (targets : List Value) :
    Except Fault Adjacency := do
  source.requireHashable
  return adjacency.put source targets

def withSets : Adjacency → Except Fault Adjacency
  | [] => .ok []
  | (source, targets) :: rest => do
    let members ← Value.members targets
    return (source, members) :: (← withSets rest)

end Adjacency

namespace Graph

def unlabelled (targets : List Value) : List (Option Action × Value) :=
  targets.map fun d => (none, d)

/-- The graph of an adjacency. A configuration without identity is refused. -/
def ofAdjacency (roots : List Value) (adjacency : Adjacency) : ValueGraph :=
  let targets (c : Value) : Except Fault (List Value) := do
    c.requireHashable
    return adjacency.targets c
  { title := "ExplicitRootedGraph"
    text :=
      "ExplicitRootedGraph(roots=" ++ toString roots.length ++ ", nodes=" ++
        toString adjacency.length ++ ", edges=" ++ toString adjacency.numEdges ++ ")"
    labelled := false
    roots := { items := roots }
    edges := fun c => .ofExcept do return unlabelled (← targets c)
    neighbours := targets }

def plain (roots : List Value) (edges : List (Value × List Value)) : ValueGraph where
  title := "ListGraph"
  text := "ListGraph()"
  labelled := false
  roots := { items := roots }
  edges c := { items := unlabelled (Adjacency.targets edges c) }
  neighbours c := .ok (Adjacency.targets edges c)

def labelledTargets (edges : List (Value × List (Value × Value))) (c : Value) :
    List (Value × Value) :=
  match edges.find? fun e => e.1 == c with
  | some e => e.2
  | none => []

def withLabels (roots : List Value) (edges : List (Value × List (Value × Value))) :
    ValueGraph where
  title := "LabelledGraph"
  text := "LabelledGraph()"
  labelled := true
  roots := { items := roots }
  edges c := { items := (labelledTargets edges c).map fun e => ((Action.value e.1).label, e.2) }
  neighbours c := .ok ((labelledTargets edges c).map (·.2))

/-- The graph of something that knows no enabled actions: it has whatever roots that has, and asking
for edges fails. -/
def ofNoRelation (text : String) (roots : Reply Value Fault Value) (refusal : Fault) :
    ValueGraph where
  title := "STR2RG"
  text := "STR2RG(" ++ text ++ ")"
  labelled := true
  roots := roots
  edges _ := .refused refusal
  neighbours _ := .error refusal

def offers (v : Value) (name : String) : Bool :=
  match State.member v name with
  | .ok .null => false
  | .ok _ => true
  | .error _ => false

/-- The graph that a value pretends to be: a state with variables that are called like the
operations of a graph. They cannot be asked. -/
def ofValue? (v : Value) : Option ValueGraph :=
  if offers v "roots" && offers v "neighbours" then
    let labelled := offers v "labelled_neighbours"
    some
      { title := v.typeName
        text := v.text
        labelled := labelled
        roots := .refused (State.refusal v "roots")
        edges := fun _ => .refused
          (State.refusal v (if labelled then "labelled_neighbours" else "neighbours"))
        neighbours := fun _ => .error (State.refusal v "neighbours") }
  else none

end Graph

inductive Model where
  | guarded (roots : List Value) (pieces : List Piece)
  | relation (r : Relation)
  | explicit (roots : List Value) (adjacency : Adjacency)
  | graph (g : ValueGraph)
  /-- The graph of a relation, from which the relation can be had back. -/
  | adapter (of : Model)
  | value (v : Value)

namespace Model

def ofAdjacency (roots : List Value) (adjacency : Adjacency) : Except Fault Model :=
  return .explicit roots (← adjacency.withSets)

def ofTerms (roots : List Value) (terms : List Term) : Except Fault Model := do
  return .guarded roots (← Relation.requirePieces terms)

def relation? : Model → Option Relation
  | .guarded roots pieces => some (.ofPieces roots pieces)
  | .relation r => some r
  | _ => none

def graph? : Model → Option ValueGraph
  | .explicit roots adjacency => some (.ofAdjacency roots adjacency)
  | .graph g => some g
  | .value v => Graph.ofValue? v
  | .adapter m =>
    match m.relation?, m with
    | some r, _ => some r.toGraph
    | none, .value v =>
      some (.ofNoRelation v.text (.refused (State.refusal v "roots")) (State.refusal v "enabled"))
    | none, m => (graph? m).map fun g =>
      .ofNoRelation g.text g.roots (.noOperation g.title "enabled")
  | _ => none

def title (m : Model) : String :=
  match m.relation?, m.graph?, m with
  | some r, _, _ => r.title
  | none, some g, _ => g.title
  | none, none, .value v => v.typeName
  | none, none, _ => ""

def text (m : Model) : String :=
  match m.relation?, m.graph?, m with
  | some r, _, _ => r.text
  | none, some g, _ => g.text
  | none, none, .value v => v.text
  | none, none, _ => ""

def toGraph (m : Model) : Except Fault ValueGraph :=
  match m.relation?, m.graph? with
  | some r, _ => .ok r.toGraph
  | none, some g => .ok g
  | none, none => .error (.notGraph m.text)

def inner : Model → Model
  | .adapter m => m
  | m => m

def toRelation (m : Model) : Except Fault Relation :=
  match m.inner.relation? with
  | some r => .ok r
  | none => .error (.notRelation m.inner.text)

def refusal (m : Model) (operation : String) : Fault :=
  match m with
  | .value v => State.refusal v operation
  | m => .noOperation m.title operation

def relationFor (m : Model) (operation : String) : Except Fault Relation :=
  match m.inner.relation? with
  | some r => .ok r
  | none => .error (m.inner.refusal operation)

def labelledGraph (m : Model) : Except Fault ValueGraph := do
  let g ← m.toGraph
  if g.labelled then return g else .error (m.refusal "labelled_neighbours")

def numEdges (m : Model) : Except Fault Value :=
  match m with
  | .explicit _ adjacency => .ok (.int adjacency.numEdges)
  | .value v => State.member v "num_edges"
  | m => do .error (.noOperation (← m.toGraph).title "num_edges")

def numPieces (m : Model) : Except Fault Nat :=
  match m.inner with
  | .guarded _ pieces => .ok pieces.length
  | .value v => do
    let pieces ← State.member v "pieces"
    match pieces.size? with
    | some n => return n
    | none => .error (.noSize pieces.typeName)
  | m => .error (.noOperation m.title "pieces")

inductive Query where
  | roots
  | enabled (c : Value)
  | successors (c : Value)
  | hasEnabled (c : Value)
  | isDeadlocked (c : Value)
  | execute (c : Value) (place : Nat) (d : Value)
  | executeValue (action c : Value)
  | neighbours (c : Value)
  | labelled (c : Value)
  | edges (c : Value)

/-- The configuration whose enabled actions are asked for on the way to an answer. -/
def Query.source? : Query → Option Value
  | .enabled c | .successors c | .hasEnabled c | .isDeadlocked c | .execute c _ _ | .neighbours c
  | .labelled c | .edges c => some c
  | .roots | .executeValue _ _ => none

inductive Finding where
  | configurations (items : List Value)
  | actions (items : List Action)
  | successors (items : List (Action × List Value))
  | edges (items : List (Option Action × Value))
  | truth (b : Bool)
  | nothing

def ask (m : Model) : Query → Except Fault Finding
  | .roots => return .configurations (← (← m.toGraph).roots.all)
  | .enabled c => return .actions (← ((← m.relationFor "enabled").enabled c).all)
  | .successors c => return .successors (← (← m.relationFor "successors").successors c)
  | .hasEnabled c => return .truth (← (← m.relationFor "has_enabled").hasEnabled c)
  | .isDeadlocked c => return .truth (← (← m.relationFor "is_deadlocked").isDeadlocked c)
  | .execute c place d => do
    let r ← m.relationFor "enabled"
    match (← (r.enabled c).all)[place]? with
    | none => return .nothing
    | some a => return .configurations (← r.execute a d)
  | .executeValue action c =>
    return .configurations (← (← m.relationFor "execute").execute (.value action) c)
  | .neighbours c => return .configurations (← (← m.toGraph).neighbours c)
  | .labelled c => return .edges (← ((← m.labelledGraph).edges c).walk)
  | .edges c => return .edges (← ((← m.toGraph).edges c).walk)

def events (m : Model) (q : Query) : List (Event Value) :=
  match q.source?, m.relationFor "enabled" with
  | some c, .ok r => (r.enabled c).events
  | _, _ => []

end Model

end StateSpace
