import StateSpace.Store

/-!
# Discovery forests

A forest tells how configurations were discovered: a root stands on its own, every other one was
reached from a parent that was there before it. Nodes are kept newest first, so that a node's parent
always stands further on and a path to a root is found in one walk.
-/

namespace StateSpace

structure Step (C A : Type) where
  configuration : C
  action : Option A

inductive Origin (K C A : Type) where
  | root (configuration : C)
  | child (parent : C) (parentKey : Key K) (action : Option A)

structure Node (K C A : Type) where
  key : Key K
  origin : Origin K C A

structure Forest (K C A : Type) where
  /-- Newest first. -/
  nodes : List (Node K C A)

namespace Forest

variable {K C A : Type} [DecidableEq K]

def empty : Forest K C A := ⟨[]⟩

def size (f : Forest K C A) : Nat := f.nodes.length

def contains (f : Forest K C A) (k : Key K) : Bool := f.nodes.any fun n => n.key.same k

def origin? (f : Forest K C A) (k : Key K) : Option (Origin K C A) :=
  (f.nodes.find? fun n => n.key.same k).map (·.origin)

def isRoot (f : Forest K C A) (k : Key K) : Bool :=
  match f.origin? k with
  | some (.root _) => true
  | _ => false

def addRoot (f : Forest K C A) (k : Key K) (c : C) : Forest K C A :=
  if f.contains k then f else ⟨⟨k, .root c⟩ :: f.nodes⟩

/-- Add the discovery of a child unless its key is there. There is no result if the parent is
unknown. -/
def record? (f : Forest K C A) (k : Key K) (parent : C) (parentKey : Key K) (action : Option A) :
    Option (Forest K C A) :=
  if f.contains k then some f
  else if f.contains parentKey then some ⟨⟨k, .child parent parentKey action⟩ :: f.nodes⟩
  else none

def rootOf : Node K C A → Option C
  | ⟨_, .root c⟩ => some c
  | ⟨_, .child _ _ _⟩ => none

def roots (f : Forest K C A) : List C := (f.nodes.filterMap rootOf).reverse

def numChildren (f : Forest K C A) : Nat := f.size - f.roots.length

def path (k : Key K) (c : C) : List (Node K C A) → List (Step C A)
  | [] => []
  | n :: older =>
    if n.key.same k then
      match n.origin with
      | .root r => [⟨r, none⟩]
      | .child parent parentKey action => path parentKey parent older ++ [⟨c, action⟩]
    else path k c older

def steps? (f : Forest K C A) (k : Key K) (c : C) : Option (List (Step C A)) :=
  if f.contains k then some (path k c f.nodes) else none

end Forest

end StateSpace
