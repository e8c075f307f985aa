import StateSpace.Sorting
import StateSpace.Value.Basic

/-!
# Canonical forms

Two values are equal exactly when their canonical forms are the same: truth values, integers and
decimals are equal as numbers, sets are equal when they have equal elements, maps do not depend on
the order of their entries, and states are equal when their variables are equal in the order of
their names. Canonical forms are totally ordered, and that order is the one in which the elements of
a set are walked.
-/

namespace StateSpace

inductive Shape where
  | tuple
  | set
  | state
  | list
  | map
  /-- Streams and operations of states, each told apart by its mark. -/
  | object (name : String) (mark : Mark)
deriving DecidableEq, Repr

def Shape.rank : Shape → Nat
  | .tuple => 3
  | .set => 4
  | .state => 5
  | .list => 7
  | .map => 8
  | .object _ _ => 9

inductive Canon where
  | null
  | num (q : Quantity)
  | str (s : String)
  | node (shape : Shape) (items : List Canon)
  | tagged (tag : String)
deriving Inhabited

namespace Canon

mutual

def decEq (a b : Canon) : Decidable (a = b) :=
  match a, b with
  | .null, .null => isTrue rfl
  | .num p, .num q => decidable_of_iff (p = q) (by simp)
  | .str s, .str t => decidable_of_iff (s = t) (by simp)
  | .node s xs, .node t ys =>
    haveI := decEqList xs ys
    decidable_of_iff (s = t ∧ xs = ys) (by simp)
  | .tagged s, .tagged t => decidable_of_iff (s = t) (by simp)
  | .null, .num _ | .null, .str _ | .null, .node _ _ | .null, .tagged _
  | .num _, .null | .num _, .str _ | .num _, .node _ _ | .num _, .tagged _
  | .str _, .null | .str _, .num _ | .str _, .node _ _ | .str _, .tagged _
  | .node _ _, .null | .node _ _, .num _ | .node _ _, .str _ | .node _ _, .tagged _
  | .tagged _, .null | .tagged _, .num _ | .tagged _, .str _ | .tagged _, .node _ _ =>
    isFalse (by intro h; cases h)

def decEqList (xs ys : List Canon) : Decidable (xs = ys) :=
  match xs, ys with
  | [], [] => isTrue rfl
  | x :: xs, y :: ys =>
    haveI := decEq x y
    haveI := decEqList xs ys
    decidable_of_iff (x = y ∧ xs = ys) (by simp)
  | [], _ :: _ | _ :: _, [] => isFalse (by intro h; cases h)

end

instance : DecidableEq Canon := decEq

/-- Null first, then numbers, texts, tuples, sets, states, tagged values; what has no identity comes
last. -/
def rank : Canon → Nat
  | .null => 0
  | .num _ => 1
  | .str _ => 2
  | .node shape _ => shape.rank
  | .tagged _ => 6

def compareChars : List Char → List Char → Ordering
  | [], [] => .eq
  | [], _ :: _ => .lt
  | _ :: _, [] => .gt
  | c :: cs, d :: ds => (compare c.toNat d.toNat).then (compareChars cs ds)

def comparePlaces : List Nat → List Nat → Ordering := List.compareLex Ord.compare

def compareMarks (m n : Mark) : Ordering :=
  (Ord.compare m.rank n.rank).then <|
    match m, n with
    | .given p, .given q | .passing p, .passing q => comparePlaces p q
    | .made r m p, .made s n q =>
      (compareChars r.toList s.toList).then ((compareMarks m n).then (comparePlaces p q))
    | _, _ => .eq

def compareShapes (s t : Shape) : Ordering :=
  (Ord.compare s.rank t.rank).then <|
    match s, t with
    | .object f m, .object g n => (compareChars f.toList g.toList).then (compareMarks m n)
    | _, _ => .eq

mutual

/-- The canonical order: by rank, then by contents. Objects with equal contents are ordered by what
tells them apart. -/
def compare (a b : Canon) : Ordering :=
  (Ord.compare a.rank b.rank).then <|
    match a, b with
    | .num p, .num q => p.compare q
    | .str s, .str t | .tagged s, .tagged t => compareChars s.toList t.toList
    | .node s xs, .node t ys => (compareList xs ys).then (compareShapes s t)
    | _, _ => .eq

def compareList (xs ys : List Canon) : Ordering :=
  match xs, ys with
  | [], [] => .eq
  | [], _ :: _ => .lt
  | _ :: _, [] => .gt
  | x :: xs, y :: ys => (compare x y).then (compareList xs ys)

end

def le (a b : Canon) : Bool := compare a b != .gt

def insertBy {α : Type} (form : α → Canon) (a : α) : List α → List α
  | [] => [a]
  | b :: rest =>
    if le (form a) (form b) then a :: b :: rest else b :: insertBy form a rest

def sortBy {α : Type} (form : α → Canon) : List α → List α
  | [] => []
  | a :: rest => insertBy form a (sortBy form rest)

/-- The first of each group of elements with one canonical form. -/
def distinctBy {α : Type} (form : α → Canon) (seen : List Canon) : List α → List α
  | [] => []
  | a :: rest =>
    if form a ∈ seen then distinctBy form seen rest
    else a :: distinctBy form (form a :: seen) rest

def pair (name value : Canon) : Canon := .node .tuple [name, value]

def elements (forms : List Canon) : List Canon := sortBy id (distinctBy id [] forms)

mutual

/-- Whether a name comes before another: numbers by size, texts by code point, tuples by the first
place where they differ, sets by inclusion. -/
def before (a b : Canon) : Bool :=
  match a, b with
  | .num p, .num q => p.lt q
  | .str s, .str t => compareChars s.toList t.toList == .lt
  | .node .tuple xs, .node .tuple ys => beforeList xs ys
  | .node .set xs, .node .set ys => xs.length < ys.length && xs.all fun x => decide (x ∈ ys)
  | _, _ => false

def beforeList (xs ys : List Canon) : Bool :=
  match xs, ys with
  | [], ys => !ys.isEmpty
  | _ :: _, [] => false
  | x :: xs, y :: ys => if x = y then beforeList xs ys else before x y

end

def nameOf : Canon → Canon
  | .node .tuple (name :: _) => name
  | form => form

def isText : Canon → Bool
  | .str _ => true
  | _ => false

/-- The entries of a state in the order of their names. Any two texts can be compared, so that it
does not matter how they are sorted; of other names some may come neither before nor after each
other. -/
def byName (entries : List Canon) : List Canon :=
  if entries.all fun e => (nameOf e).isText then sortBy id entries
  else Id.run (Sorting.sort (fun d e => pure (before (nameOf d) (nameOf e))) entries)

mutual

def lasting : Canon → Bool
  | .node (.object _ mark) _ => mark.lasting
  | .node _ items => allLasting items
  | _ => true

def allLasting : List Canon → Bool
  | [] => true
  | form :: rest => lasting form && allLasting rest

end

end Canon

namespace Value

mutual

def canon : Value → Canon
  | .null => .null
  | .bool b => .num (.ofInt (if b then 1 else 0))
  | .int n => .num (.ofInt n)
  | .real d => .num d.toQuantity
  | .str s => .str s
  | .tuple items => .node .tuple (canonList items)
  | .list items => .node .list (canonList items)
  | .set items => .node .set (Canon.elements (canonList items))
  | .openSet items => .node .set (Canon.elements (canonList items))
  | .stream mark items => .node (.object "" mark) (canonList items)
  | .map entries => .node .map (Canon.sortBy id (canonEntries entries))
  | .state _ vars => .node .state (Canon.byName (canonEntries vars))
  | .operation name mark vars => .node (.object name mark) (canonEntries vars)
  | .tagged tag _ => .tagged tag

def canonList : List Value → List Canon
  | [] => []
  | v :: rest => canon v :: canonList rest

def canonEntries : List (Value × Value) → List Canon
  | [] => []
  | (k, v) :: rest => Canon.pair (canon k) (canon v) :: canonEntries rest

end

/-- Values are compared by their canonical forms. -/
instance : BEq Value := ⟨fun a b => decide (a.canon = b.canon)⟩

theorem beq_iff (a b : Value) : (a == b) = true ↔ a.canon = b.canon := by
  simp [BEq.beq]

def isNaN : Value → Bool
  | .real .nan => true
  | _ => false

/-- Equality as it is asked of two values. The number that is none equals nothing, not even itself,
although it is found again as a part of other values. -/
def equals (a b : Value) : Bool := !a.isNaN && a == b

theorem beq_of_equals {a b : Value} (h : a.equals b = true) : (a == b) = true := by
  cases hb : (a == b) <;> simp_all [equals]

def canonical (values : List Value) : List Value :=
  Canon.sortBy canon (Canon.distinctBy canon [] values)

end Value

end StateSpace
