import StateSpace.State

/-!
# Collections of configurations

A collection is a store whose keys are made by a key function. It is compared and combined with
sets, with other collections and, where only elements are needed, with any value that can be walked.
Membership in a collection goes by its keys, in a set by equality.
-/

namespace StateSpace

structure Collection where
  key : Option KeyFunction
  store : Store Canon Value

inductive Operand where
  | value (v : Value)
  | collection (c : Collection)

namespace Collection

def empty (key : Option KeyFunction) : Collection := ⟨key, .empty⟩

def text (c : Collection) : String := "ReachableSet(" ++ toString c.store.size ++ " configurations)"

def add (c : Collection) (v : Value) : Except Fault (Collection × Bool) := do
  let k ← identify c.key v
  return ({ c with store := c.store.insert k v }, !c.store.contains k)

def addAll (c : Collection) : List Value → Except Fault Collection
  | [] => .ok c
  | v :: rest => do addAll (← c.add v).1 rest

def get? (c : Collection) (v : Value) : Except Fault (Option Value) :=
  return c.store.get? (← identify c.key v)

def contains (c : Collection) (v : Value) : Except Fault Bool :=
  return c.store.contains (← identify c.key v)

end Collection

namespace Operand

def typeName : Operand → String
  | .value v => v.typeName
  | .collection _ => "ReachableSet"

def elements? : Operand → Option (List Value)
  | .value v => v.elements?
  | .collection c => some c.store.toList

def setElements? : Operand → Option (List Value)
  | .value (.set items) | .value (.openSet items) => some items
  | .value _ => none
  | .collection c => some c.store.toList

def contains (o : Operand) (v : Value) : Except Fault Bool :=
  match o with
  | .value (.set items) | .value (.openSet items) => v.memberOf items
  | .value _ => .ok false
  | .collection c => c.contains v

def asSet (o : Operand) (items : List Value) : Except Fault Operand :=
  match o.setElements? with
  | some _ => .ok o
  | none => return .value (.set (← Value.members items))

end Operand

namespace Collection

def hashFault : Fault := .unhashable "ReachableSet"

def allIn (member : Value → Except Fault Bool) : List Value → Except Fault Bool
  | [] => .ok true
  | v :: rest => do
    if ← member v then allIn member rest else return false

/-- The values for which membership comes out as wanted. Each is asked and then looked at for an
identity, before the next one is. -/
def pick (member : Value → Except Fault Bool) (wanted : Bool) :
    List Value → Except Fault (List Value)
  | [] => .ok []
  | v :: rest => do
    if (← member v) == wanted then
      v.requireHashable
      return v :: (← pick member wanted rest)
    else pick member wanted rest

def setSide (operator : String) (o : Operand) : Except Fault (List Value) :=
  match o.setElements? with
  | some items => .ok items
  | none => .error (.notOrdered operator "ReachableSet" o.typeName)

def subset (c : Collection) (o : Operand) : Except Fault Bool :=
  allIn o.contains c.store.toList

def le (c : Collection) (o : Operand) : Except Fault Bool := do
  let items ← setSide "<=" o
  if items.length < c.store.size then return false else c.subset o

def lt (c : Collection) (o : Operand) : Except Fault Bool := do
  let items ← setSide "<" o
  if c.store.size < items.length then c.subset o else return false

def ge (c : Collection) (o : Operand) : Except Fault Bool := do
  let items ← setSide ">=" o
  if c.store.size < items.length then return false else allIn c.contains items

def gt (c : Collection) (o : Operand) : Except Fault Bool := do
  let items ← setSide ">" o
  if items.length < c.store.size then allIn c.contains items else return false

/-- Only a set or a collection can be equal to a collection. -/
def equal (c : Collection) (o : Operand) : Except Fault Bool :=
  match o.setElements? with
  | none => .ok false
  | some items => if items.length = c.store.size then c.subset o else .ok false

def noneIn (c : Collection) : List Value → Except Fault Bool
  | [] => .ok true
  | v :: rest => do
    if ← c.contains v then return false else noneIn c rest

def isDisjoint (c : Collection) (o : Operand) : Except Fault Bool :=
  match o.elements? with
  | none => .error (.notIterable o.typeName)
  | some items => c.noneIn items

inductive Combination where
  | and
  | or
  | sub
  | xor
deriving DecidableEq

def Combination.sign : Combination → String
  | .and => "&"
  | .or => "|"
  | .sub => "-"
  | .xor => "^"

def operandElements (op : Combination) (o : Operand) (reversed : Bool) :
    Except Fault (List Value) :=
  match o.elements?, reversed with
  | some items, _ => .ok items
  | none, false => .error (.noOperator op.sign "ReachableSet" o.typeName)
  | none, true => .error (.noOperator op.sign o.typeName "ReachableSet")

def inter (c : Collection) (items : List Value) : Except Fault (List Value) :=
  return Value.canonical (← pick c.contains true items)

def union (c : Collection) (items : List Value) : Except Fault (List Value) :=
  Value.members (c.store.toList ++ items)

def minus (c : Collection) (o : Operand) (items : List Value) : Except Fault (List Value) := do
  let other ← o.asSet items
  return Value.canonical (← pick other.contains false c.store.toList)

def missing (c : Collection) (o : Operand) (items : List Value) : Except Fault (List Value) := do
  let other ← o.asSet items
  return Value.canonical (← pick c.contains false (other.elements?.getD []))

def symmetric (c : Collection) (o : Operand) (items : List Value) : Except Fault (List Value) := do
  let other ← o.asSet items
  let left ← c.minus other items
  let right ← c.missing other items
  return Value.canonical (left ++ right)

def combine (c : Collection) (op : Combination) (o : Operand) : Except Fault (List Value) := do
  let items ← operandElements op o false
  match op with
  | .and => c.inter items
  | .or => c.union items
  | .sub => c.minus o items
  | .xor => c.symmetric o items

def combineReversed (c : Collection) (op : Combination) (o : Operand) :
    Except Fault (List Value) := do
  match o with
  | .collection d => d.combine op (.collection c)
  | o =>
    let items ← operandElements op o true
    match op with
    | .and => c.inter items
    | .or => c.union items
    | .sub => c.missing o items
    | .xor => c.symmetric o items

end Collection

end StateSpace
