import StateSpace.Value.Text

/-!
# Errors of the checker

Every error has a kind and a message. The errors that are the checker's own also carry a code,
written as a family and a number of at least four places, and may carry a hint that is put behind
the message.
-/

namespace StateSpace

inductive ErrorKind where
  | type
  | value
  | key
  | index
  | member
  | lookup
  | runtime
  | zeroDivision
  /-- The sign by which a walk tells that it has come to its end. -/
  | stop
  | assertion
  | frozen
  | check
  | configuration
  | contract
  | target
  | budget
  | predicate
  | settings
deriving DecidableEq, Repr

namespace ErrorKind

def name : ErrorKind → String
  | .type => "TypeError"
  | .value => "ValueError"
  | .key => "KeyError"
  | .index => "IndexError"
  | .member => "AttributeError"
  | .lookup => "LookupError"
  | .runtime => "RuntimeError"
  | .zeroDivision => "ZeroDivisionError"
  | .stop => "StopIteration"
  | .assertion => "AssertionError"
  | .frozen => "FrozenInstanceError"
  | .check => "StrCheckError"
  | .configuration => "ConfigurationError"
  | .contract => "ContractViolationError"
  | .target => "TargetNotReachableError"
  | .budget => "BudgetExceededError"
  | .predicate => "PredicateError"
  | .settings => "InvalidConfigError"

def raisable : List ErrorKind :=
  [.value, .key, .type, .runtime, .zeroDivision, .member, .lookup, .stop, .check]

def ofName? (s : String) : Option ErrorKind := raisable.find? fun k => k.name == s

def isCheck : ErrorKind → Bool
  | .check | .configuration | .contract | .target | .budget | .predicate | .settings => true
  | _ => false

def isLookup : ErrorKind → Bool
  | .lookup | .key | .index | .target => true
  | _ => false

def isValue : ErrorKind → Bool
  | .value | .settings => true
  | _ => false

end ErrorKind

structure ErrorCode where
  family : String
  number : Int
  title : String

namespace ErrorCode

/-- A number in at least four places, the sign taking one of them. -/
def places (n : Int) : String :=
  let sign := if n < 0 then "-" else ""
  let digits := toString n.natAbs
  sign ++ String.ofList (List.replicate (4 - sign.length - digits.length) '0') ++ digits

def text (c : ErrorCode) : String := c.family ++ "-" ++ places c.number

def described (c : ErrorCode) : String :=
  "ErrorCode(" ++ Text.quoted c.text ++ ", " ++ Text.quoted c.title ++ ")"

/-- Codes are told apart by family and number; the title does not count. -/
instance : BEq ErrorCode := ⟨fun c d => c.family == d.family && c.number == d.number⟩

def hashKey (c : ErrorCode) : String × Int := (c.family, c.number)

def sameHash (c d : ErrorCode) : Option Bool :=
  if c == d then some (c.hashKey == d.hashKey) else none

/-- A code equals the text that it is written as, and no other value. -/
def equalsValue (c : ErrorCode) : Value → Bool
  | .str s => c.text == s
  | _ => false

def generic : ErrorCode := ⟨"STR", 0, "str_checker error"⟩
def unhashableConfiguration : ErrorCode := ⟨"STR", 1001, "unhashable configuration"⟩
def actionSourceMismatch : ErrorCode := ⟨"STR", 2001, "action source mismatch"⟩
def targetNotReachable : ErrorCode := ⟨"STR", 3001, "target not reachable"⟩
def budgetExceeded : ErrorCode := ⟨"STR", 4001, "exploration budget exceeded"⟩
def predicateRaised : ErrorCode := ⟨"STR", 5001, "predicate raised"⟩
def invalidSettings : ErrorCode := ⟨"STR", 6001, "invalid exploration config"⟩

def predefined : List (String × ErrorCode) :=
  [("GENERIC", generic), ("UNHASHABLE_CONFIGURATION", unhashableConfiguration),
   ("ACTION_SOURCE_MISMATCH", actionSourceMismatch), ("TARGET_NOT_REACHABLE", targetNotReachable),
   ("BUDGET_EXCEEDED", budgetExceeded), ("PREDICATE_RAISED", predicateRaised),
   ("INVALID_CONFIG", invalidSettings)]

end ErrorCode

structure CheckError where
  kind : ErrorKind
  code : ErrorCode
  message : String
  hint : String := ""

namespace CheckError

def withHint (e : CheckError) (hint : String) : CheckError := { e with hint := hint }

def text (e : CheckError) : String :=
  "[" ++ e.code.text ++ "] " ++ e.message ++
    (if e.hint = "" then "" else " (hint: " ++ e.hint ++ ")")

def general (code : ErrorCode) (message hint : String) : CheckError := ⟨.check, code, message, hint⟩

def unidentified (configuration : Value) : CheckError :=
  ⟨.configuration, .unhashableConfiguration,
    "Configuration " ++ configuration.text ++ " has no hashable identity",
    "use an immutable value such as a tuple, frozenset or State, or pass a key function"⟩

def contractViolation (action : String) (configuration source : Value) : CheckError :=
  ⟨.contract, .actionSourceMismatch,
    "Action " ++ action ++ " executed against " ++ configuration.text ++
      ", but it was enabled in " ++ source.text,
    "only execute actions returned by enabled() for the same configuration"⟩

def unreachable (target : Value) : CheckError :=
  ⟨.target, .targetNotReachable, "No such reachable configuration: " ++ target.text, ""⟩

def budgetExceeded (reason : String) : CheckError :=
  ⟨.budget, .budgetExceeded, "Exploration budget exceeded: " ++ reason,
    "the reachable set may be infinite; raise max_configurations or max_seconds"⟩

def predicateRaised (name : String) (configuration : Value) (cause : ErrorKind)
    (message : String) : CheckError :=
  ⟨.predicate, .predicateRaised,
    "Predicate '" ++ name ++ "' raised " ++ cause.name ++ " on " ++ configuration.text ++ ": " ++
      message, ""⟩

def invalidSettings (problems : List String) : CheckError :=
  ⟨.settings, .invalidSettings,
    "Invalid exploration config: " ++ "; ".intercalate problems, ""⟩

end CheckError

inductive Report where
  | plain (kind : ErrorKind) (message : String)
  | check (error : CheckError)

namespace Report

def kind : Report → ErrorKind
  | .plain kind _ => kind
  | .check error => error.kind

def message : Report → String
  | .plain _ message => message
  | .check error => error.text

end Report

end StateSpace
