import StateSpace.Action
import StateSpace.State
import StateSpace.Value.Marking

/-!
# Expressions

A small language in which guards, effects, predicates and key functions are written as data. An
expression is evaluated for a configuration and, where there is one, an action. Operands are
evaluated from left to right before they are combined, except under `all`, `any` and `cond`.

Every evaluation makes its states and streams anew. They are marked by the site in the expression at
which they are made.
-/

namespace StateSpace

inductive ArithOp where
  | add
  | sub
  | mul
  | div
  | mod
deriving DecidableEq, Repr

inductive OrderOp where
  | lt
  | le
  | gt
  | ge
deriving DecidableEq, Repr

inductive SetOp where
  | union
  | diff
  | inter
deriving DecidableEq, Repr

inductive Expr where
  | configuration
  | action
  | lit (v : Value)
  | all (es : List Expr)
  | any (es : List Expr)
  | cond (test yes no : Expr)
  | negate (e : Expr)
  | truth (e : Expr)
  | fail (cause : Fault)
  | attr (e : Expr) (name : String)
  | change (e : Expr) (changes : List (String × Expr))
  | state (vars : List (String × Expr))
  | tuple (es : List Expr)
  | list (es : List Expr)
  | openSet (es : List Expr)
  | set (es : List Expr)
  | stream (es : List Expr)
  | equal (l r : Expr)
  | distinct (l r : Expr)
  | arith (op : ArithOp) (l r : Expr)
  | order (op : OrderOp) (l r : Expr)
  | item (e key : Expr)
  | member (e container : Expr)
  | size (e : Expr)
  | join (l r : Expr)
  | combine (op : SetOp) (l r : Expr)

/-- Division rounds down, and the rest has the sign of the divisor. -/
def ArithOp.apply (op : ArithOp) (m n : Int) : Except Fault Value :=
  match op with
  | .add => .ok (.int (m + n))
  | .sub => .ok (.int (m - n))
  | .mul => .ok (.int (m * n))
  | .div => if n = 0 then .error .divisionByZero else .ok (.int (m.fdiv n))
  | .mod => if n = 0 then .error .divisionByZero else .ok (.int (m.fmod n))

def OrderOp.apply (op : OrderOp) (m n : Int) : Bool :=
  match op with
  | .lt => m < n
  | .le => m ≤ n
  | .gt => n < m
  | .ge => n ≤ m

/-- A union keeps the left one of two equal elements. An intersection takes its elements from the
smaller set, from the right one if both have the same size. -/
def SetOp.apply (op : SetOp) (xs ys : List Value) : List Value :=
  match op with
  | .union => Value.canonical (xs ++ ys)
  | .diff => xs.filter fun v => !ys.contains v
  | .inter =>
    if xs.length < ys.length then xs.filter fun v => ys.contains v
    else ys.filter fun v => xs.contains v

namespace Expr

def integer (v : Value) : Except Fault Int :=
  match v.int? with
  | some n => .ok n
  | none => .error (.expected "int")

def frozenItems : Value → Except Fault (List Value)
  | .set items => .ok items
  | _ => .error (.expected "fset")

def tupleItems : Value → Except Fault (List Value)
  | .tuple items => .ok items
  | _ => .error (.expected "tuple")

def itemAt (items : List Value) (place : Value) : Except Fault Value := do
  let n ← integer place
  if n < 0 then .error .indexOutOfRange
  else match items[n.toNat]? with
    | some v => return v
    | none => .error .indexOutOfRange

def itemOf (container key : Value) : Except Fault Value :=
  match container with
  | .state _ entries | .map entries => Value.item entries key
  | .tuple items | .list items => itemAt items key
  | _ => .error (.expected "container")

def isMember (v container : Value) : Except Fault Bool :=
  match container with
  | .tuple items | .list items => .ok (items.contains v)
  | .set items | .openSet items => v.memberOf items
  | _ => .error (.expected "container")

def sizeOf (v : Value) : Except Fault Nat :=
  match v.size? with
  | some n => .ok n
  | none => .error (.expected "container")

structure Scene where
  configuration : Value
  action : Value
  mark : List Nat → Mark

mutual

def eval (s : Scene) (site : List Nat) : Expr → Except Fault Value
  | .configuration => .ok s.configuration
  | .action => .ok s.action
  | .lit v => .ok (v.marked s.mark site)
  | .all es => return .bool (← evalAll s site 0 es)
  | .any es => return .bool (← evalAny s site 0 es)
  | .cond test yes no => do
    if (← eval s (0 :: site) test).truthy then eval s (1 :: site) yes
    else eval s (2 :: site) no
  | .negate e => return .bool !(← eval s (0 :: site) e).truthy
  | .truth e => return .bool (← eval s (0 :: site) e).truthy
  | .fail cause => .error cause
  | .attr e name => do State.accessIn (← eval s (0 :: site) e) name
  | .change e changes => do
    let vars ← State.vars (← eval s (0 :: site) e)
    let changed ← State.change vars (← evalNamed s (1 :: site) 0 changes)
    return changed.withMark (s.mark site)
  | .state vars => do
    let made ← State.ofNamed (← evalNamed s site 0 vars)
    return made.withMark (s.mark site)
  | .tuple es => return .tuple (← evalList s site 0 es)
  | .list es => return .list (← evalList s site 0 es)
  | .openSet es => return .openSet (← Value.members (← evalList s site 0 es))
  | .set es => return .set (← Value.members (← evalList s site 0 es))
  | .stream es => return .stream (s.mark site) (← evalList s site 0 es)
  | .equal l r => do
    let x ← eval s (0 :: site) l
    let y ← eval s (1 :: site) r
    return .bool (x.equals y)
  | .distinct l r => do
    let x ← eval s (0 :: site) l
    let y ← eval s (1 :: site) r
    return .bool !(x.equals y)
  | .arith op l r => do
    let x ← eval s (0 :: site) l
    let y ← eval s (1 :: site) r
    op.apply (← integer x) (← integer y)
  | .order op l r => do
    let x ← eval s (0 :: site) l
    let y ← eval s (1 :: site) r
    return .bool (op.apply (← integer x) (← integer y))
  | .item e key => do
    let x ← eval s (0 :: site) e
    let k ← eval s (1 :: site) key
    itemOf x k
  | .member e container => do
    let x ← eval s (0 :: site) e
    let y ← eval s (1 :: site) container
    return .bool (← isMember x y)
  | .size e => do return .int (← sizeOf (← eval s (0 :: site) e))
  | .join l r => do
    let x ← eval s (0 :: site) l
    let y ← eval s (1 :: site) r
    return .tuple ((← tupleItems x) ++ (← tupleItems y))
  | .combine op l r => do
    let x ← eval s (0 :: site) l
    let y ← eval s (1 :: site) r
    return .set (op.apply (← frozenItems x) (← frozenItems y))

def evalList (s : Scene) (site : List Nat) (place : Nat) : List Expr → Except Fault (List Value)
  | [] => .ok []
  | e :: rest => do
    let v ← eval s (place :: site) e
    return v :: (← evalList s site (place + 1) rest)

def evalNamed (s : Scene) (site : List Nat) (place : Nat) :
    List (String × Expr) → Except Fault (List (String × Value))
  | [] => .ok []
  | (name, e) :: rest => do
    let v ← eval s (place :: site) e
    return (name, v) :: (← evalNamed s site (place + 1) rest)

def evalAll (s : Scene) (site : List Nat) (place : Nat) : List Expr → Except Fault Bool
  | [] => .ok true
  | e :: rest => do
    if (← eval s (place :: site) e).truthy then evalAll s site (place + 1) rest
    else return false

def evalAny (s : Scene) (site : List Nat) (place : Nat) : List Expr → Except Fault Bool
  | [] => .ok false
  | e :: rest => do
    if (← eval s (place :: site) e).truthy then return true
    else evalAny s site (place + 1) rest

end

def result (e : Expr) (action configuration : Value) : Except Fault Value :=
  e.eval ⟨configuration, action, .made action.text configuration.mark⟩ []

def toRoutine (e : Expr) (label : String) : Routine where
  label := label
  run c := e.eval ⟨c, .null, .made label c.mark⟩ []

/-- The expression as a key function. What it makes on its way is made again for every key. -/
def toKey (e : Expr) : KeyFunction := fun c => e.eval ⟨c, .null, .passing⟩ []

end Expr

end StateSpace
