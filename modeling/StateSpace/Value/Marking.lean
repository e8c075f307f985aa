import StateSpace.Value.Basic

/-!
# Marking

Values are written without marks. `Value.marked` gives every state and every stream in a written
value a mark of its own, made from its place in that value; what has a mark keeps it. `Value.mark`
reads the first mark in a value, which stands for the value as a whole.
-/

namespace StateSpace.Value

/-- Give a mark to the value itself, not to its parts. -/
def withMark (mark : Mark) : Value → Value
  | .state _ vars => .state mark vars
  | .stream _ items => .stream mark items
  | v => v

mutual

def marked (mark : List Nat → Mark) (site : List Nat) : Value → Value
  | .tuple items => .tuple (markedItems mark site 0 items)
  | .list items => .list (markedItems mark site 0 items)
  | .set items => .set (markedItems mark site 0 items)
  | .openSet items => .openSet (markedItems mark site 0 items)
  | .map entries => .map (markedEntries mark site 0 entries)
  | .stream .written items => .stream (mark site) (markedItems mark site 0 items)
  | .state .written vars => .state (mark site) (markedEntries mark site 0 vars)
  | v => v

def markedItems (mark : List Nat → Mark) (site : List Nat) (place : Nat) :
    List Value → List Value
  | [] => []
  | v :: rest => marked mark (place :: site) v :: markedItems mark site (place + 1) rest

def markedEntries (mark : List Nat → Mark) (site : List Nat) (place : Nat) :
    List (Value × Value) → List (Value × Value)
  | [] => []
  | (k, v) :: rest =>
    (marked mark (0 :: place :: site) k, marked mark (1 :: place :: site) v) ::
      markedEntries mark site (place + 1) rest

end

def given (place : List Nat) (values : List Value) : List Value :=
  markedItems .given place 0 values

mutual

def mark : Value → Mark
  | .state mark _ | .stream mark _ | .operation _ mark _ => mark
  | .tuple items | .list items | .set items | .openSet items => firstMark items
  | .map entries => firstEntryMark entries
  | _ => .written

def firstMark : List Value → Mark
  | [] => .written
  | v :: rest =>
    match mark v with
    | .written => firstMark rest
    | found => found

def firstEntryMark : List (Value × Value) → Mark
  | [] => .written
  | (_, v) :: rest =>
    match mark v with
    | .written => firstEntryMark rest
    | found => found

end

end StateSpace.Value
