import StateSpace.Report

/-!
# Log lines and the parts that speak

A log writes nothing until it is configured. It then writes every record that is at least as heavy
as its threshold and comes from the checker or one of its parts. The catalogue has the names under
which the parts and what they offer are listed.
-/

namespace StateSpace

def rootLogger : String := "str_checker"

structure Record where
  logger : String
  weight : Int
  message : String

def Event.record (e : Event Value) : Record := ⟨e.source, e.level.weight, e.message⟩

structure Logging where
  threshold : Option Int := none

namespace Logging

def thresholdOf (verbosity : Int) : Nat :=
  if verbosity = 1 then Level.info.weight
  else if verbosity ≥ 2 then Level.debug.weight
  else Level.warning.weight

def configure (_ : Logging) (verbosity : Int) : Logging := ⟨some (thresholdOf verbosity)⟩

def weightName (weight : Int) : String :=
  match weight with
  | 0 => "NOTSET"
  | 10 => "DEBUG"
  | 20 => "INFO"
  | 30 => "WARNING"
  | 40 => "ERROR"
  | 50 => "CRITICAL"
  | weight => "Level " ++ toString weight

def fitted (width : Nat) (s : String) : String :=
  let cut := s.toList.take width
  String.ofList (cut ++ List.replicate (width - cut.length) ' ')

def belongs (logger : String) : Bool :=
  logger = rootLogger || (rootLogger ++ ".").toList.isPrefixOf logger.toList

def line (time : String) (r : Record) : String :=
  time ++ " [" ++ fitted 5 (weightName r.weight) ++ "] " ++ r.logger ++ ": " ++ r.message ++ "\n"

def emit (l : Logging) (time : String) (r : Record) : String :=
  match l.threshold with
  | none => ""
  | some threshold =>
    if belongs r.logger && threshold ≤ r.weight then line time r else ""

def emitEvents (l : Logging) (time : String) (events : List (Event Value)) : String :=
  String.join (events.map fun e => l.emit time e.record)

/-- Whether a listener who wants records of some weight hears of a record. A configured log keeps
lighter ones from everyone. -/
def heard (l : Logging) (wanted : Int) (r : Record) : Bool :=
  belongs r.logger && wanted ≤ r.weight && (l.threshold.getD wanted) ≤ r.weight

end Logging

namespace Catalogue

def name : String := rootLogger

def version : String := "0.1.0"

def parts : List (String × List String) :=
  [("errors",
      ["StrCheckError", "ConfigurationError", "ContractViolationError", "TargetNotReachableError",
       "BudgetExceededError", "PredicateError", "InvalidConfigError"]),
   ("config", ["ExplorationConfig", "configure_logging"]),
   ("configuration", ["State", "identity_key", "fingerprint"]),
   ("actions", ["Action", "Piece", "always", "piecewise"]),
   ("relation",
      ["SemanticTransitionRelation", "STR", "PiecewiseRelation", "FunctionalRelation"]),
   ("rooted_graph", ["RootedGraph", "STR2RG", "ExplicitRootedGraph", "as_rooted_graph"]),
   ("exploration",
      ["ReachableSet", "ParentTracer", "TraceStep", "ReachabilityResult", "Reachability",
       "reachable"]),
   ("verifier",
      ["VerificationStatus", "Counterexample", "VerificationResult", "PredicateVerifier", "check",
       "check_deadlock_free"])]

def partNames : List String :=
  (Value.canonical (parts.map fun p => .str p.1)).map (·.shown)

/-- All that is offered: by each part, then the part itself, then the catalogue. -/
def offered : List String :=
  parts.flatMap (fun p => p.2 ++ [p.1]) ++ ["list_submodules", "package_info", "__version__"]

end Catalogue

end StateSpace
