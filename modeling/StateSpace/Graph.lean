/-!
# Graphs and their replies

A question to a model is answered by a `Reply`: the items in the order in which they are produced,
the fault that ends them early, if any, and what the question wrote to the log. A fault after some
items only shows to a reader who gets that far. A question may also fail before it reaches the
model.

A rooted graph is the flat view of a model that is explored: roots, and for every configuration the
edges that leave it. An edge has a target and, if the model tells, the action that it stands for.
-/

namespace StateSpace

inductive Event (C : Type) where
  | started (graph strategy : String)
  | progress (configurations frontier depth : Nat)
  | budgetExceeded (configurations : Nat) (reason : String)
  | finished (configurations transitions : Nat) (elapsed : Rat)
  | enabled (count : Nat) (configuration : C)
  | violated (property : String) (configuration : C)
  | deadlocked (configuration : C)
  | holds (property : String) (configurations : Nat)

structure Reply (C E α : Type) where
  items : List α
  fault : Option E := none
  events : List (Event C) := []
  /-- Whether the question reached the model, which takes time. -/
  reached : Bool := true

namespace Reply

variable {C E α β : Type}

def ofExcept : Except E (List α) → Reply C E α
  | .ok items => { items := items }
  | .error e => { items := [], fault := some e }

def refused (e : E) : Reply C E α := { items := [], fault := some e, reached := false }

def time (r : Reply C E α) (tick : Rat) : Rat := if r.reached then tick else 0

def all (r : Reply C E α) : Except E (List α) :=
  match r.fault with
  | some e => .error e
  | none => .ok r.items

/-- Whether there is an item at all; only the first one is asked for. -/
def nonempty (r : Reply C E α) : Except E Bool :=
  match r.items, r.fault with
  | _ :: _, _ => .ok true
  | [], some e => .error e
  | [], none => .ok false

def expand (f : α → Except E (List β)) (fault : Option E) : List α → List β × Option E
  | [] => ([], fault)
  | a :: rest =>
    match f a with
    | .error e => ([], some e)
    | .ok items =>
      let later := expand f fault rest
      (items ++ later.1, later.2)

def bind (r : Reply C E α) (f : α → Except E (List β)) : Reply C E β :=
  let produced := expand f r.fault r.items
  { r with items := produced.1, fault := produced.2 }

end Reply

structure Graph (C A E : Type) where
  title : String
  text : String
  labelled : Bool
  roots : Reply C E C
  edges : C → Reply C E (Option A × C)
  /-- The targets of these edges, as the graph itself collects them. -/
  neighbours : C → Except E (List C)

end StateSpace
