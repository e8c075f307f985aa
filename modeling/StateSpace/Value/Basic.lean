import StateSpace.Decimal

/-!
# Values

Configurations, actions and the results of guards and effects are values of one type. A `set` has an
identity of its own and can be an element of another; an `openSet`, a `list` and a `map` have none.
The elements of both kinds of set stand in canonical order, the entries of maps and states in the
order in which they were declared.

Values are compared by their contents, with two exceptions: a stream equals only itself, and an
operation of a state equals only the same operation of the very same state. States and streams
therefore carry a mark of where they come from.
-/

namespace StateSpace

/-- Where a state or a stream comes from. Different marks belong to different objects, whatever
their contents. -/
inductive Mark where
  | written
  | given (place : List Nat)
  /-- Made by a routine for something with a mark, at a site of its expression. -/
  | made (routine : String) (source : Mark) (site : List Nat)
  /-- Made on the way to a key, and made again whenever the key is asked for. -/
  | passing (site : List Nat)
deriving DecidableEq, Repr, Inhabited

def Mark.lasting : Mark → Bool
  | .written | .passing _ => false
  | .given _ | .made _ _ _ => true

def Mark.rank : Mark → Nat
  | .written => 0
  | .given _ => 1
  | .made _ _ _ => 2
  | .passing _ => 3

inductive Value where
  | null
  | bool (b : Bool)
  | int (n : Int)
  | real (d : Decimal)
  | str (s : String)
  | tuple (items : List Value)
  | list (items : List Value)
  | set (items : List Value)
  | openSet (items : List Value)
  | stream (mark : Mark) (items : List Value)
  | map (entries : List (Value × Value))
  | state (mark : Mark) (vars : List (Value × Value))
  | operation (name : String) (mark : Mark) (vars : List (Value × Value))
  /-- A value that is told apart by its tag and brings its own digest. -/
  | tagged (tag digest : String)
deriving Inhabited

namespace Value

def typeName : Value → String
  | .null => "NoneType"
  | .bool _ => "bool"
  | .int _ => "int"
  | .real _ => "float"
  | .str _ => "str"
  | .tuple _ => "tuple"
  | .list _ => "list"
  | .set _ => "frozenset"
  | .openSet _ => "set"
  | .stream _ _ => "list_iterator"
  | .map _ => "dict"
  | .state _ _ => "State"
  | .operation _ _ _ => "method"
  | .tagged _ _ => "Tagged"

def truthy : Value → Bool
  | .null => false
  | .bool b => b
  | .int n => n != 0
  | .real (.finite _ digits _) => digits != 0
  | .real _ => true
  | .str s => s != ""
  | .tuple items | .list items | .set items | .openSet items => !items.isEmpty
  | .map entries | .state _ entries => !entries.isEmpty
  | .stream _ _ | .operation _ _ _ | .tagged _ _ => true

/-- The number that a value stands for; truth values count as one and zero. -/
def quantity? : Value → Option Quantity
  | .bool b => some (.ofInt (if b then 1 else 0))
  | .int n => some (.ofInt n)
  | .real d => some d.toQuantity
  | _ => none

def int? : Value → Option Int
  | .bool b => some (if b then 1 else 0)
  | .int n => some n
  | _ => none

/-- The elements met when walking a value: characters of a text, names of a state, keys of a map. -/
def elements? : Value → Option (List Value)
  | .tuple items | .list items | .set items | .openSet items | .stream _ items => some items
  | .map entries | .state _ entries => some (entries.map (·.1))
  | .str s => some (s.toList.map fun c => .str (String.singleton c))
  | _ => none

def size? : Value → Option Nat
  | .tuple items | .list items | .set items | .openSet items => some items.length
  | .str s => some s.length
  | .map entries | .state _ entries => some entries.length
  | _ => none

end Value

end StateSpace
