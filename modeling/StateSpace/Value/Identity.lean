import StateSpace.Fault
import StateSpace.Value.Canon

/-!
# Values with an identity

Lists, open sets and maps have no identity, nor has a tuple that holds one. Only values with an
identity can be elements of a set, keys of a map or values of a state's variables. Sets keep the
first of equal elements, maps keep the first of equal keys with the last value given for it.
-/

namespace StateSpace.Value

mutual

/-- The kind of the first part that has no identity. -/
def unhashable? : Value → Option String
  | .list _ => some "list"
  | .openSet _ => some "set"
  | .map _ => some "dict"
  | .tuple items => firstUnhashable? items
  | _ => none

def firstUnhashable? : List Value → Option String
  | [] => none
  | v :: rest =>
    match unhashable? v with
    | some typeName => some typeName
    | none => firstUnhashable? rest

end

theorem firstUnhashable?_eq_none {values : List Value} :
    firstUnhashable? values = none ↔ ∀ v ∈ values, v.unhashable? = none := by
  induction values with
  | nil => simp [firstUnhashable?]
  | cons v rest ih =>
      rw [firstUnhashable?, List.forall_mem_cons, ← ih]
      cases v.unhashable? <;> simp

def requireHashable (v : Value) : Except Fault Unit :=
  match v.unhashable? with
  | some typeName => .error (.unhashable typeName)
  | none => .ok ()

/-- The elements of a set: each must have an identity, the first of equal ones is kept, and they are
put into canonical order. -/
def members (values : List Value) : Except Fault (List Value) :=
  match firstUnhashable? values with
  | some typeName => .error (.unhashable typeName)
  | none => .ok (canonical values)

theorem members_eq_error {values : List Value} {e : Fault} :
    members values = .error e ↔
      ∃ typeName, e = .unhashable typeName ∧ firstUnhashable? values = some typeName := by
  unfold members
  cases firstUnhashable? values with
  | none => simp
  | some typeName => simp [eq_comm]

theorem members_eq_ok {values found : List Value} :
    members values = .ok found ↔ firstUnhashable? values = none ∧ canonical values = found := by
  unfold members
  cases firstUnhashable? values <;> simp

def elements (v : Value) : Except Fault (List Value) :=
  match v.elements? with
  | some items => .ok items
  | none => .error (.notIterable v.typeName)

/-- Look for a member of a set. An open set is found as the set of its elements; any other value
without identity is refused. -/
def memberOf (v : Value) (items : List Value) : Except Fault Bool :=
  match v with
  | .openSet _ => .ok (items.contains v)
  | v => do
    v.requireHashable
    return items.contains v

/-- Entries with an equal key take the new value and keep their key and place. -/
def put (entries : List (Value × Value)) (key value : Value) : List (Value × Value) :=
  match entries with
  | [] => [(key, value)]
  | (k, v) :: rest => if k == key then (k, value) :: rest else (k, v) :: put rest key value

def putAll (entries changes : List (Value × Value)) : List (Value × Value) :=
  changes.foldl (fun acc e => put acc e.1 e.2) entries

def lookup (entries : List (Value × Value)) (key : Value) : Option Value :=
  (entries.find? fun e => e.1 == key).map (·.2)

def item (entries : List (Value × Value)) (key : Value) : Except Fault Value := do
  key.requireHashable
  match lookup entries key with
  | some v => return v
  | none => .error (.missingKey key)

def item? (entries : List (Value × Value)) (key : Value) : Except Fault (Option Value) := do
  key.requireHashable
  return lookup entries key

def enter (entries : List (Value × Value)) (key value : Value) :
    Except Fault (List (Value × Value)) := do
  key.requireHashable
  return put entries key value

end StateSpace.Value
