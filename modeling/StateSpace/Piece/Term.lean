import StateSpace.Piece

/-!
# Pieces written as tuples

A piece may be written as a tuple of a guard, a body and, if wanted, a name; a body that is not a
routine is a sequence of pieces, written in the same way. A `Term` is what can be met where a piece
is expected, and `Piece.ofTerms` reads a sequence of terms, pieces being taken as they are.
-/

namespace StateSpace

inductive Term where
  | routine (r : Routine)
  | always
  | value (v : Value)
  | tuple (items : List Term)
  | list (items : List Term)
  | piece (p : Piece)

namespace Term

def typeName : Term → String
  | .routine _ => "Fn"
  | .always => "function"
  | .value v => v.typeName
  | .tuple _ => "tuple"
  | .list _ => "list"
  | .piece _ => "Piece"

mutual

def text : Term → String
  | .routine r => r.text
  | .always => Guard.always.text
  | .value v => v.text
  | .tuple [t] => "(" ++ text t ++ ",)"
  | .tuple items => Value.bracketed "(" ")" (textList items)
  | .list items => Value.bracketed "[" "]" (textList items)
  | .piece p => p.text

def textList : List Term → List String
  | [] => []
  | t :: rest => text t :: textList rest

end

def elements? : Term → Option (List Term)
  | .tuple items | .list items => some items
  | .value v => v.elements?.map fun items => items.map .value
  | _ => none

def guard (t : Term) : Except Fault Guard :=
  match t with
  | .routine r => .ok (.ofRoutine r)
  | .always => .ok .always
  | t => .error (.guardNotCallable t.text)

def pieces : List Term → Except Fault (List Piece)
  | [] => .ok []
  | .piece p :: rest => return p :: (← pieces rest)
  | t :: _ => .error (.partNotPiece t.text)

def pieceName : Option Term → Option String
  | some (.value .null) => none
  | some (.value v) => some v.shown
  | some t => some t.text
  | none => none

end Term

namespace Piece

/-- Make a piece of its guard, its body and its name. The guard is looked at first, then the body,
then each of its parts. -/
def make (guard body : Term) (name : Option String) : Except Fault Piece := do
  let guard ← guard.guard
  match body with
  | .routine effect => return .leaf guard name effect
  | .always => return .leaf guard name ⟨"always", fun _ => .ok (.bool true)⟩
  | body =>
    match body.elements? with
    | none => .error (.notIterable body.typeName)
    | some items => return .group guard name (← Term.pieces items)

mutual

def valueFault : Value → Fault
  | .tuple items | .list items | .set items | .openSet items | .stream _ items => itemsFault items
  | .map entries | .state _ entries => entriesFault entries
  | .str s => .tooFewValues (min 1 s.length)
  | v => .cannotUnpack v.typeName

def itemsFault : List Value → Fault
  | [] => .tooFewValues 0
  | [_] => .tooFewValues 1
  | guard :: body :: _ => bodyFault guard.text body

def entriesFault : List (Value × Value) → Fault
  | [] => .tooFewValues 0
  | [_] => .tooFewValues 1
  | (guard, _) :: (body, _) :: _ => bodyFault guard.text body

def bodyFault (guard : String) : Value → Fault
  | .tuple [] | .list [] | .set [] | .openSet [] | .stream _ [] | .map [] | .state _ [] =>
    .guardNotCallable guard
  | .tuple (v :: _) | .list (v :: _) | .set (v :: _) | .openSet (v :: _) | .stream _ (v :: _) =>
    valueFault v
  | .map ((k, _) :: _) | .state _ ((k, _) :: _) => valueFault k
  | .str s => if s = "" then .guardNotCallable guard else .tooFewValues 1
  | v => .cannotSpread v.typeName

end

mutual

def ofTerm : Term → Except Fault Piece
  | .piece p => .ok p
  | .tuple items | .list items => ofItems items
  | .value v => .error (valueFault v)
  | t => .error (.cannotUnpack t.typeName)

/-- Guard, body and name; whatever follows the name is passed over. -/
def ofItems : List Term → Except Fault Piece
  | [] => .error (.tooFewValues 0)
  | [_] => .error (.tooFewValues 1)
  | guard :: body :: rest => ofParts guard (Term.pieceName rest.head?) body

/-- A body that is no routine is read as written pieces before the guard is looked at. -/
def ofParts (guard : Term) (name : Option String) : Term → Except Fault Piece
  | .tuple items | .list items => do
    let parts ← ofTerms items
    make guard (.list (parts.map .piece)) name
  | .value v =>
    match v.elements? with
    | none => .error (.cannotSpread v.typeName)
    | some [] => make guard (.list []) name
    | some (w :: _) => .error (valueFault w)
  | .piece p => .error (.cannotSpread (Term.piece p).typeName)
  | .routine effect => make guard (.routine effect) name
  | .always => make guard .always name

def ofTerms : List Term → Except Fault (List Piece)
  | [] => .ok []
  | t :: rest => do
    let p ← ofTerm t
    return p :: (← ofTerms rest)

end

end Piece

end StateSpace
