import StateSpace.Action

/-!
# Guarded pieces

A piece is a guard with an effect, or a guard with further pieces inside it. `resolve` walks pieces
from the outside in and from left to right and gives one action for each leaf whose guards all hold.
The walk is an `Inquiry`, which also keeps the guards that it asked. Names are joined by a slash,
and a piece without a name is called by its place.
-/

namespace StateSpace

/-- A condition on configurations. The guard that always holds has no label. -/
structure Guard where
  label : Option String
  test : Value → Except Fault Bool

namespace Guard

def always : Guard := ⟨none, fun _ => .ok true⟩

def ofRoutine (r : Routine) : Guard := ⟨some r.label, r.holds⟩

def text (g : Guard) : String :=
  match g.label with
  | some label => "<fn " ++ label ++ ">"
  | none => "<function always>"

end Guard

/-- A computation that asks guards: those that it asked, in order, and what came of it. -/
structure Inquiry (α : Type) where
  asked : List Guard
  outcome : Except Fault α

namespace Inquiry

/-- Nothing is asked after a failure. -/
def bind {α β : Type} (first : Inquiry α) (next : α → Inquiry β) : Inquiry β :=
  match first.outcome with
  | .error e => ⟨first.asked, .error e⟩
  | .ok a =>
    let later := next a
    ⟨first.asked ++ later.asked, later.outcome⟩

instance : Monad Inquiry where
  pure a := ⟨[], .ok a⟩
  bind := bind

end Inquiry

def Guard.ask (g : Guard) (configuration : Value) : Inquiry Bool := ⟨[g], g.test configuration⟩

inductive Piece where
  | leaf (guard : Guard) (name : Option String) (effect : Routine)
  | group (guard : Guard) (name : Option String) (parts : List Piece)

namespace Piece

def guard : Piece → Guard
  | .leaf guard _ _ => guard
  | .group guard _ _ => guard

def name : Piece → Option String
  | .leaf _ name _ => name
  | .group _ name _ => name

def isLeaf : Piece → Bool
  | .leaf _ _ _ => true
  | .group _ _ _ => false

mutual

def leaves : Piece → List Routine
  | .leaf _ _ effect => [effect]
  | .group _ _ parts => leavesOf parts

def leavesOf : List Piece → List Routine
  | [] => []
  | p :: rest => leaves p ++ leavesOf rest

end

def localName (place : Nat) : Option String → String
  | some name => name
  | none => "piece" ++ toString place

/-- The name of a piece at a place, below a path; an empty path is no path. -/
def pathName (path : String) (place : Nat) (name : Option String) : String :=
  if path = "" then localName place name else path ++ "/" ++ localName place name

mutual

def resolvePiece (path : String) (place : Nat) (configuration : Value) :
    Piece → Inquiry (List Action)
  | .leaf guard name effect => do
    if ← guard.ask configuration then
      return [.bound (pathName path place name) configuration effect]
    else return []
  | .group guard name parts => do
    if ← guard.ask configuration then
      resolveFrom (pathName path place name) 0 configuration parts
    else return []

def resolveFrom (path : String) (place : Nat) (configuration : Value) :
    List Piece → Inquiry (List Action)
  | [] => return []
  | p :: rest => do
    let first ← resolvePiece path place configuration p
    return first ++ (← resolveFrom path (place + 1) configuration rest)

end

def resolve (path : String) (pieces : List Piece) (configuration : Value) :
    Except Fault (List Action) :=
  (resolveFrom path 0 configuration pieces).outcome

def guardsAsked (pieces : List Piece) (configuration : Value) : List Guard :=
  (resolveFrom "" 0 configuration pieces).asked

def asked (pieces : List Piece) (configuration : Value) : List String :=
  (guardsAsked pieces configuration).filterMap (·.label)

def nameText : Option String → String
  | some name => Text.quoted name
  | none => "None"

mutual

def text : Piece → String
  | .leaf guard name effect =>
    "Piece(guard=" ++ guard.text ++ ", body=" ++ effect.text ++ ", name=" ++ nameText name ++ ")"
  | .group guard name [part] =>
    "Piece(guard=" ++ guard.text ++ ", body=(" ++ text part ++ ",), name=" ++ nameText name ++ ")"
  | .group guard name parts =>
    "Piece(guard=" ++ guard.text ++ ", body=" ++ Value.bracketed "(" ")" (textList parts) ++
      ", name=" ++ nameText name ++ ")"

def textList : List Piece → List String
  | [] => []
  | p :: rest => text p :: textList rest

end

end Piece

end StateSpace
