/-!
# Sorting by comparisons that may fail

Names are sorted by comparing them, and a comparison may have no answer. Which pairs are compared
can therefore be seen from outside. The list begins with a run that rises or falls; a falling run is
turned round, and every further element is put behind all that it does not come before, at a place
that is found by halving.

For an order in which any two elements can be compared the result is the usual stable sorting.
-/

namespace StateSpace.Sorting

universe u

variable {α : Type} {m : Type → Type u} [Monad m]

def falling (lt : α → α → m Bool) (last : α) : List α → m (List α × List α)
  | [] => return ([], [])
  | a :: rest => do
    if ← lt a last then
      let (run, others) ← falling lt a rest
      return (a :: run, others)
    else return ([], a :: rest)

def rising (lt : α → α → m Bool) (last : α) : List α → m (List α × List α)
  | [] => return ([], [])
  | a :: rest => do
    if ← lt a last then return ([], a :: rest)
    else
      let (run, others) ← rising lt a rest
      return (a :: run, others)

/-- The run at the beginning of a list, in rising order, and what follows it. -/
def firstRun (lt : α → α → m Bool) : List α → m (List α × List α)
  | [] => return ([], [])
  | [a] => return ([a], [])
  | a :: b :: rest => do
    if ← lt b a then
      let (run, others) ← falling lt b rest
      return ((a :: b :: run).reverse, others)
    else
      let (run, others) ← rising lt b rest
      return (a :: b :: run, others)

/-- Put an element into a sorted list by looking at its middle. The fuel is at least the length of
the list. -/
def insert (lt : α → α → m Bool) (a : α) : Nat → List α → m (List α)
  | 0, sorted => return a :: sorted
  | fuel + 1, sorted =>
    let half := sorted.length / 2
    match sorted.drop half with
    | [] => return [a]
    | middle :: after => do
      if ← lt a middle then
        return (← insert lt a fuel (sorted.take half)) ++ middle :: after
      else
        return sorted.take half ++ middle :: (← insert lt a fuel after)

def insertAll (lt : α → α → m Bool) (sorted : List α) : List α → m (List α)
  | [] => return sorted
  | a :: rest => do insertAll lt (← insert lt a sorted.length sorted) rest

def sort (lt : α → α → m Bool) (items : List α) : m (List α) := do
  let (run, rest) ← firstRun lt items
  insertAll lt run rest

end StateSpace.Sorting
