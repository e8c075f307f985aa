/-!
# Keys and stores

Configurations are told apart by keys. Most keys are values that can be compared again later. A key
that was made for one look only is no such value: it is `none`, and it matches no key, not even
itself.

A store holds configurations in the order in which they were added, at most one for each key that
can be compared. The first configuration added under a key stays.
-/

namespace StateSpace

abbrev Key (K : Type) := Option K

namespace Key

variable {K : Type} [DecidableEq K]

def same : Key K → Key K → Bool
  | some a, some b => a = b
  | _, _ => false

@[simp]
theorem same_some (a b : K) : same (some a) (some b) = decide (a = b) := rfl

@[simp]
theorem same_none_left (k : Key K) : same none k = false := rfl

@[simp]
theorem same_none_right (k : Key K) : same k none = false := by cases k <;> rfl

theorem same_iff {j k : Key K} : same j k = true ↔ ∃ a, j = some a ∧ k = some a := by
  cases j <;> cases k <;> simp [eq_comm]

end Key

structure Store (K C : Type) where
  /-- Keys with their configurations, oldest first. -/
  entries : List (Key K × C)

namespace Store

variable {K C : Type} [DecidableEq K]

def empty : Store K C := ⟨[]⟩

def size (s : Store K C) : Nat := s.entries.length

def keys (s : Store K C) : List (Key K) := s.entries.map (·.1)

def toList (s : Store K C) : List C := s.entries.map (·.2)

def contains (s : Store K C) (k : Key K) : Bool := s.entries.any fun e => e.1.same k

def get? (s : Store K C) (k : Key K) : Option C :=
  (s.entries.find? fun e => e.1.same k).map (·.2)

def push (s : Store K C) (k : Key K) (c : C) : Store K C := ⟨s.entries ++ [(k, c)]⟩

def insert (s : Store K C) (k : Key K) (c : C) : Store K C :=
  if s.contains k then s else s.push k c

end Store

end StateSpace
