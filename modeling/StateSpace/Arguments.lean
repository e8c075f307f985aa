/-!
# Arguments of the command line

The only options ask for more talk or for help. They may be written short, several in one word, or
long, and a long one may be cut short. Words that are no options are collected and refused at the
end, so that help asked for behind them is still given. After two dashes on their own no word is an
option. A word that could be any long option is refused before all others are looked at.
-/

namespace StateSpace.Arguments

inductive Parsed where
  | verbosity (n : Nat)
  | help
  | refused
deriving DecidableEq, Repr

inductive Word where
  | verbose (times : Nat)
  | help
  | malformed
  | extra
deriving DecidableEq, Repr

def cluster (times : Nat) (help : Bool) : List Char → Word
  | [] => if help then .help else .verbose times
  | 'v' :: rest => cluster (times + 1) help rest
  | 'h' :: rest => cluster times true rest
  | _ :: _ => .malformed

def long (name : List Char) : Word :=
  let stem := name.takeWhile (· != '=')
  let known := stem.isPrefixOf "verbose".toList || stem.isPrefixOf "help".toList
  if stem = [] || !known then .extra
  else if stem.length < name.length then .malformed
  else if stem.isPrefixOf "verbose".toList then .verbose 1
  else .help

/-- A short option. A sign of equality behind the first one is passed over, but something has to
follow it. -/
def short (option : Char) : List Char → Word
  | ['='] => .malformed
  | '=' :: rest => cluster 0 false (option :: rest)
  | rest => cluster 0 false (option :: rest)

def word (s : String) : Word :=
  match s.toList with
  | '-' :: '-' :: name => long name
  | '-' :: 'v' :: rest => short 'v' rest
  | '-' :: 'h' :: rest => short 'h' rest
  | _ => .extra

def ambiguous (s : String) : Bool :=
  match s.toList with
  | '-' :: '-' :: '=' :: _ => true
  | _ => false

def read (verbosity : Nat) (extra : Bool) : List String → Parsed
  | [] => if extra then .refused else .verbosity verbosity
  | s :: rest =>
    match word s with
    | .verbose times => read (verbosity + times) extra rest
    | .help => .help
    | .malformed => .refused
    | .extra => read verbosity true rest

def parse (words : List String) : Parsed :=
  let options := words.takeWhile (· != "--")
  if options.any ambiguous then .refused else read 0 (options.length < words.length) options

def exitCode? : Parsed → Option Nat
  | .verbosity _ => none
  | .help => some 0
  | .refused => some 2

end StateSpace.Arguments
