import StateSpace.Fault
import StateSpace.Value.Canon

/-!
# Exploration settings

Settings bound an exploration, choose the order in which it proceeds and say how exhaustion of the
bounds is reported. They may hold any values until they are checked; a `Plan` is what checked
settings come to.
-/

namespace StateSpace

inductive Strategy where
  | breadthFirst
  | depthFirst
deriving DecidableEq, Repr

namespace Strategy

def name : Strategy → String
  | .breadthFirst => "bfs"
  | .depthFirst => "dfs"

def all : List Strategy := [.breadthFirst, .depthFirst]

def ofValue? (v : Value) : Option Strategy := all.find? fun s => v == .str s.name

end Strategy

structure Bound where
  quantity : Quantity
  text : String

structure Plan where
  maxConfigurations : Option Bound
  maxSeconds : Option Bound
  strategy : Strategy
  raiseOnBudget : Bool
  logEvery : Quantity

structure Settings where
  maxConfigurations : Value := .null
  maxSeconds : Value := .null
  strategy : Value := .str "bfs"
  raiseOnBudget : Value := .bool false
  logEvery : Value := .int 10000

namespace Settings

def fields (s : Settings) : List (String × Value) :=
  [("max_configurations", s.maxConfigurations), ("max_seconds", s.maxSeconds),
   ("strategy", s.strategy), ("raise_on_budget", s.raiseOnBudget), ("log_every", s.logEvery)]

/-- Change one setting. The settings themselves are no setting, though they have a name as well. -/
def set (s : Settings) (name : String) (value : Value) : Except Fault Settings :=
  match name with
  | "max_configurations" => .ok { s with maxConfigurations := value }
  | "max_seconds" => .ok { s with maxSeconds := value }
  | "strategy" => .ok { s with strategy := value }
  | "raise_on_budget" => .ok { s with raiseOnBudget := value }
  | "log_every" => .ok { s with logEvery := value }
  | "self" => .error (.repeatedArgument "ExplorationConfig.__init__" "self")
  | name => .error (.unknownSetting name)

def setAll (s : Settings) : List (String × Value) → Except Fault Settings
  | [] => .ok s
  | (name, value) :: rest => do setAll (← s.set name value) rest

def ofFields (changes : List (String × Value)) : Except Fault Settings := setAll {} changes

def replace (s : Settings) (changes : List (String × Value)) : Except Fault Settings :=
  if changes.any fun c => c.1 == "self" then
    .error (.repeatedArgument "ExplorationConfig.replace" "self")
  else s.setAll changes

def assign (_ : Settings) (name : String) : Fault := .frozenSetting name

def notPositive (v : Value) : Except Fault Bool :=
  match v.quantity? with
  | some q => .ok (q.le (.ofInt 0))
  | none => .error (.notOrdered "<=" v.typeName "int")

/-- A bound that is null does not bound. -/
def boundProblems (name : String) (v : Value) : Except Fault (List String) :=
  match v with
  | .null => .ok []
  | v => do
    if ← notPositive v then return [name ++ " must be positive"] else return []

def problems (s : Settings) : Except Fault (List String) := do
  let configurations ← boundProblems "max_configurations" s.maxConfigurations
  let seconds ← boundProblems "max_seconds" s.maxSeconds
  let strategy :=
    if (Strategy.ofValue? s.strategy).isSome then []
    else ["strategy must be one of " ++ ", ".intercalate (Strategy.all.map (·.name)) ++
      ", not " ++ s.strategy.text]
  let log := if ← notPositive s.logEvery then ["log_every must be positive"] else []
  return configurations ++ seconds ++ strategy ++ log

def check (s : Settings) : Except Fault Unit := do
  match ← s.problems with
  | [] => return ()
  | found => .error (.invalidSettings found)

def bound (v : Value) : Option Bound := v.quantity?.map fun q => ⟨q, v.shown⟩

def plan (s : Settings) : Except Fault Plan := do
  s.check
  return {
    maxConfigurations := bound s.maxConfigurations
    maxSeconds := bound s.maxSeconds
    strategy := (Strategy.ofValue? s.strategy).getD .breadthFirst
    raiseOnBudget := s.raiseOnBudget.truthy
    logEvery := (s.logEvery.quantity?).getD (.ofInt 1) }

def bounded (s : Settings) : Bool :=
  match s.maxConfigurations, s.maxSeconds with
  | .null, .null => false
  | _, _ => true

def text (s : Settings) : String :=
  "ExplorationConfig(" ++ ", ".intercalate (s.fields.map fun f => f.1 ++ "=" ++ f.2.text) ++ ")"

def equal (s t : Settings) : Bool :=
  (s.fields.zip t.fields).all fun p => p.1.2.equals p.2.2

end Settings

end StateSpace
