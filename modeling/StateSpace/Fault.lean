import StateSpace.Error

/-!
# Faults

A `Fault` is the cause of a failed operation on values, states, pieces, relations or settings. Its
wording is given in one place, by `Fault.report`.
-/

namespace StateSpace

inductive Fault where
  | raised (kind : ErrorKind) (text : String)
  /-- The end of a walk was told by something that another walk had asked. -/
  | stopped (text : String)
  | unhashable (typeName : String)
  | notIterable (typeName : String)
  | notCallable (typeName : String)
  | notOrdered (operator left right : String)
  | noOperator (operator left right : String)
  | noSize (typeName : String)
  | notSubscriptable (typeName : String)
  | needsIndex (typeName : String)
  | notContainer (typeName : String)
  | needsText (typeName : String)
  | missingKey (key : Value)
  | indexOutOfRange
  | divisionByZero
  | expected (what : String)
  | entryNoSequence (position : Nat)
  | entryLength (position length : Nat)
  | hiddenVariable (name : String)
  | noVariable (name : String)
  | unknownVariables (names : List String)
  | stateAssignment
  | stateDeletion
  | repeatedArgument (operation parameter : String)
  | guardNotCallable (guard : String)
  | partNotPiece (part : String)
  | notPiece (piece : String)
  | cannotUnpack (typeName : String)
  | tooFewValues (found : Nat)
  | cannotSpread (typeName : String)
  | cannotRun (relation action : String)
  | noOperation (typeName operation : String)
  | notGraph (model : String)
  | notRelation (model : String)
  | contractViolation (action : String) (configuration source : Value)
  | unidentified (configuration : Value) (typeName : String)
  | unreachable (target : Value)
  | unknownSetting (name : String)
  | frozenSetting (name : String)
  | invalidSettings (problems : List String)
  | noCounterexample
deriving Inhabited

namespace Fault

def raisedReport (kind : ErrorKind) (text : String) : Report :=
  match kind with
  | .check => .check (.general .generic text "")
  | .key => .plain .key (Text.quoted text)
  | kind => .plain kind text

def report : Fault → Report
  | .raised kind text => raisedReport kind text
  | .stopped _ => .plain .runtime "generator raised StopIteration"
  | .unhashable t => .plain .type s!"unhashable type: '{t}'"
  | .notIterable t => .plain .type s!"'{t}' object is not iterable"
  | .notCallable t => .plain .type s!"'{t}' object is not callable"
  | .notOrdered op l r => .plain .type s!"'{op}' not supported between instances of '{l}' and '{r}'"
  | .noOperator op l r => .plain .type s!"unsupported operand type(s) for {op}: '{l}' and '{r}'"
  | .noSize t => .plain .type s!"object of type '{t}' has no len()"
  | .notSubscriptable t => .plain .type s!"'{t}' object is not subscriptable"
  | .needsIndex "str" => .plain .type "string indices must be integers, not 'str'"
  | .needsIndex t => .plain .type s!"{t} indices must be integers or slices, not str"
  | .notContainer t => .plain .type s!"argument of type '{t}' is not iterable"
  | .needsText t => .plain .type s!"'in <string>' requires string as left operand, not {t}"
  | .missingKey key => .plain .key key.text
  | .indexOutOfRange => .plain .index "index out of range"
  | .divisionByZero => .plain .zeroDivision "division by zero"
  | .expected what => .plain .type s!"{what} expected"
  | .entryNoSequence i =>
    .plain .type s!"cannot convert dictionary update sequence element #{i} to a sequence"
  | .entryLength i n =>
    .plain .value s!"dictionary update sequence element #{i} has length {n}; 2 is required"
  | .hiddenVariable name => .plain .member name
  | .noVariable name => .plain .member ("State has no variable " ++ Text.quoted name)
  | .unknownVariables names =>
    .plain .key (Text.quoted ("State has no variable(s) " ++ ", ".intercalate names))
  | .stateAssignment =>
    .plain .member "State is immutable; use with_() to derive a successor"
  | .stateDeletion => .plain .member "State is immutable"
  | .repeatedArgument op p => .plain .type s!"{op}() got multiple values for argument '{p}'"
  | .guardNotCallable g => .plain .type s!"Piece guard must be callable, got {g}"
  | .partNotPiece p => .plain .type s!"Nested piece body must contain Piece objects, got {p}"
  | .notPiece p => .plain .type s!"Expected Piece, got {p}"
  | .cannotUnpack t => .plain .type s!"cannot unpack non-iterable {t} object"
  | .tooFewValues n =>
    .plain .value s!"not enough values to unpack (expected at least 2, got {n})"
  | .cannotSpread t =>
    .plain .type
      s!"str_checker.actions.piecewise() argument after * must be an iterable, not {t}"
  | .cannotRun relation action =>
    .plain .type (relation ++ ".execute does not know how to run " ++ action ++
      "; override execute() for custom action types")
  | .noOperation t op => .plain .member s!"'{t}' object has no attribute '{op}'"
  | .notGraph model =>
    .plain .type (model ++ " is neither a SemanticTransitionRelation nor a rooted graph " ++
      "(needs roots() and neighbours())")
  | .notRelation model =>
    .plain .type ("Deadlock checking needs a SemanticTransitionRelation, got " ++ model)
  | .contractViolation action configuration source =>
    .check (.contractViolation action configuration source)
  | .unidentified configuration _ => .check (.unidentified configuration)
  | .unreachable target => .check (.unreachable target)
  | .unknownSetting name =>
    .plain .type s!"ExplorationConfig.__init__() got an unexpected keyword argument '{name}'"
  | .frozenSetting name => .plain .frozen ("cannot assign to field " ++ Text.quoted name)
  | .invalidSettings problems => .check (.invalidSettings problems)
  | .noCounterexample => .plain .assertion ""

def kind (f : Fault) : ErrorKind := f.report.kind

def message (f : Fault) : String := f.report.message

def cause? : Fault → Option Fault
  | .unidentified _ typeName => some (.unhashable typeName)
  | .stopped text => some (.raised .stop text)
  | _ => none

/-- What becomes of a fault that leaves a walk. The sign that a walk has ended cannot leave one as
such, since it would be taken for the end of that walk. -/
def leaving : Fault → Fault
  | .raised .stop text => .stopped text
  | f => f

end Fault

end StateSpace
