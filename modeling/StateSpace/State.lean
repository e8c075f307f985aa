import StateSpace.Digest
import StateSpace.Store
import StateSpace.Value.Identity

/-!
# States and identity keys

A state assigns values to named variables. It keeps the order in which the variables were declared,
but two states with texts as names are equal whenever they assign equal values to equal names. A
successor is derived by copying a state with some variables changed.

The variables of a state are sorted by their names. Names are mostly texts but may be other values
with an order: numbers, tuples, and sets, which are ordered by inclusion and thus only in part. Two
names of kinds that have no order between them are refused when they are compared.

A fingerprint is a digest of a value's written form, the same in every run. A state's is taken of
its variables sorted by name, and a tagged value brings its own. The identity key of a configuration
decides which configurations are the same one: it is the configuration itself or what a key function
makes of it, and it must have an identity.
-/

namespace StateSpace

namespace Value

mutual

def before (a b : Value) : Except Fault Bool :=
  match a, b with
  | .tuple xs, .tuple ys => beforeItems xs ys
  | .str s, .str t => .ok (Canon.before (.str s) (.str t))
  | .set xs, .set ys => .ok (Canon.before (canon (.set xs)) (canon (.set ys)))
  | a, b =>
    match a.quantity?, b.quantity? with
    | some p, some q => .ok (p.lt q)
    | _, _ => .error (.notOrdered "<" a.typeName b.typeName)

def beforeItems (xs ys : List Value) : Except Fault Bool :=
  match xs, ys with
  | [], ys => .ok !ys.isEmpty
  | _ :: _, [] => .ok false
  | x :: xs, y :: ys => if x == y then beforeItems xs ys else before x y

end

def isText : Value → Bool
  | .str _ => true
  | _ => false

/-- Entries in the order of their names. Any two texts can be compared, so that it does not matter
how they are sorted. -/
def sortByName (entries : List (Value × Value)) : Except Fault (List (Value × Value)) :=
  if entries.all fun e => e.1.isText then .ok (Canon.sortBy (fun e => e.1.canon) entries)
  else Sorting.sort (fun d e => before d.1 e.1) entries

end Value

namespace State

/-- The operations of a state. They are found before a variable of the same name. -/
def operations : List String :=
  ["keys", "items", "values", "get", "with_", "as_dict", "fingerprint",
   "__init__", "__getitem__", "__iter__", "__len__", "__contains__", "__getattr__", "__setattr__",
   "__delattr__", "__eq__", "__ne__", "__hash__", "__repr__", "__reduce__",
   "__str__", "__lt__", "__le__", "__gt__", "__ge__", "__getattribute__", "__format__",
   "__sizeof__", "__dir__", "__reduce_ex__", "__getstate__", "__new__", "__init_subclass__",
   "__subclasshook__"]

def documentation : String :=
  "\n    ".intercalate
    ["Immutable, hashable assignment of values to named variables.\n",
     "``State`` is the natural configuration type for models written as",
     "\"a set of variables\": successors are built copy-then-modify with",
     ":meth:`with_`, which never touches the receiver.\n",
     ">>> s = State(a=\"I\", b=\"I\")",
     ">>> t = s.with_(a=\"C\")",
     ">>> (s.a, t.a)",
     "('I', 'C')",
     ">>> t == State(b=\"I\", a=\"C\")",
     "True", ""]

/-- What is the same for all states. It too is found before a variable of the same name. -/
def common : List (String × Value) :=
  [("__module__", .str "str_checker.configuration"),
   ("__slots__", .tuple [.str "_values", .str "_key", .str "_hash"]),
   ("__reversed__", .null),
   ("__abstractmethods__", .set []),
   ("__doc__", .str documentation)]

def vars : Value → Except Fault (List (Value × Value))
  | .state _ vars => .ok vars
  | _ => .error (.expected "state")

def sorted (vars : List (Value × Value)) : List (Value × Value) :=
  match Value.sortByName vars with
  | .ok sorted => sorted
  | .error _ => vars

def key (vars : List (Value × Value)) : Value :=
  .tuple ((sorted vars).map fun e => .tuple [e.1, e.2])

/-- The state with the given variables. It must be possible to sort their names, and their values
must have an identity. -/
def make (vars : List (Value × Value)) : Except Fault Value := do
  let _ ← Value.sortByName vars
  match (key vars).unhashable? with
  | some typeName => .error (.unidentified (.map vars) typeName)
  | none => return .state .written vars

def ofNamed (named : List (String × Value)) : Except Fault Value :=
  make (Value.putAll [] (named.map fun e => (.str e.1, e.2)))

def readEntries (position : Nat) (acc : List (Value × Value)) :
    List Value → Except Fault (List (Value × Value))
  | [] => .ok acc
  | v :: rest =>
    match v.elements? with
    | none => .error (.entryNoSequence position)
    | some [k, x] => do readEntries (position + 1) (← Value.enter acc k x) rest
    | some items => .error (.entryLength position items.length)

def entriesOf : Value → Except Fault (List (Value × Value))
  | .map entries | .state _ entries => .ok entries
  | v => do readEntries 0 [] (← v.elements)

/-- The state of a mapping, changed by variables given by name. A mapping that is false is empty. -/
def build (mapping : Value) (named : List (String × Value)) : Except Fault Value := do
  match named.find? fun e => e.1 == "self" || e.1 == "_values" with
  | some (name, _) => .error (.repeatedArgument "State.__init__" name)
  | none =>
    let entries ← if mapping.truthy then entriesOf mapping else pure []
    make (Value.putAll entries (named.map fun e => (.str e.1, e.2)))

def change (vars : List (Value × Value)) (changes : List (String × Value)) :
    Except Fault Value :=
  if changes.any fun e => e.1 == "self" then .error (.repeatedArgument "State.with_" "self")
  else
    let unknown := changes.filter fun e => (Value.lookup vars (.str e.1)).isNone
    if unknown.isEmpty then make (Value.putAll vars (changes.map fun e => (.str e.1, e.2)))
    else
      let names := Value.canonical (unknown.map fun e => .str e.1)
      .error (.unknownVariables (names.map (·.shown)))

structure Derived where
  old : Value
  new : Value
  /-- Whether the two are one object, which a copy never is. -/
  same : Bool := false

def derive (v : Value) (changes : List (String × Value)) : Except Fault Derived := do
  return { old := v, new := ← change (← vars v) changes }

/-- What a name written behind a point stands for. Operations and what is common to all states come
first, and a name with a leading underscore is never a variable. -/
def access (mark : Mark) (vars : List (Value × Value)) (name : String) : Except Fault Value :=
  if operations.contains name then .ok (.operation name mark vars)
  else match common.lookup name with
    | some v => .ok v
    | none =>
      if name = "_values" then .ok (.map vars)
      else if name = "_key" then .ok (key vars)
      else if name.toList.head? = some '_' then .error (.hiddenVariable name)
      else match Value.lookup vars (.str name) with
        | some v => .ok v
        | none => .error (.noVariable name)

def accessIn (v : Value) (name : String) : Except Fault Value :=
  match v with
  | .state mark vars => access mark vars name
  | _ => .error (.expected "state")

/-- A name behind a point after any value. Of all values only states have names. -/
def member (v : Value) (name : String) : Except Fault Value :=
  match v with
  | .state mark vars => access mark vars name
  | v => .error (.noOperation v.typeName name)

def refusal (v : Value) (operation : String) : Fault :=
  match member v operation with
  | .ok found => .notCallable found.typeName
  | .error e => e

end State

namespace Value

def fingerprint : Value → String
  | .state _ vars => Digest.ofText (State.key vars).text
  | .tagged _ digest => digest
  | v => Digest.ofText v.text

/-- What the hash of a value is made from. A state is hashed by its variables in the order of their
names. -/
def hashKey (v : Value) : Except Fault Canon := do
  v.requireHashable
  match v with
  | .state _ vars => return (State.key vars).canon
  | v => return v.canon

def sameHash (v w : Value) : Except Fault (Option Bool) := do
  if v == w then return some ((← v.hashKey) == (← w.hashKey)) else return none

end Value

namespace State

structure Copy where
  made : Value
  equal : Bool
  sameHash : Option Bool
  sameFingerprint : Bool

def copy (v : Value) : Except Fault Copy := do
  let made ← make (← vars v)
  return ⟨made, v == made, ← v.sameHash made, v.fingerprint == made.fingerprint⟩

end State

abbrev KeyFunction := Value → Except Fault Value

def identityKey (key : Option KeyFunction) (configuration : Value) : Except Fault Value := do
  let k ← match key with
    | some f => f configuration
    | none => pure configuration
  match k.unhashable? with
  | some typeName => .error (.unidentified configuration typeName)
  | none => return k

/-- The canonical form of the identity key, by which configurations are told apart. A key with a
part that cannot be met again matches no other. -/
def identify (key : Option KeyFunction) (configuration : Value) : Except Fault (Key Canon) := do
  let form := (← identityKey key configuration).canon
  return if form.lasting then some form else none

end StateSpace
