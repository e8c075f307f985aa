import StateSpace.Arguments
import StateSpace.Example.MutualExclusion
import StateSpace.Example.RiverCrossing
import StateSpace.Logging

/-!
# Command line

The first word names an example model, the others are its arguments. The findings go to the standard
output, the log to the standard error. Log lines carry the time since the program began.
-/

namespace StateSpace

structure Showing where
  output : String
  log : List (Event Value)
  code : UInt32

def showing? (name : String) : Option Showing :=
  match name with
  | "mutual-exclusion" =>
    let t := MutualExclusion.report
    some ⟨t.output, t.log, t.failures.toUInt32⟩
  | "river-crossing" =>
    let t := RiverCrossing.report
    some ⟨t.output, t.log, if t.solution.isSome then 0 else 1⟩
  | _ => none

def usage : String := "usage: mutual-exclusion|river-crossing [-h] [-v]"

def twoPlaces (n : Nat) : String := (if n < 10 then "0" else "") ++ toString n

def clockText (ms : Nat) : String :=
  let seconds := ms / 1000
  ":".intercalate ([seconds / 3600, seconds / 60 % 60, seconds % 60].map twoPlaces)

def present (shown : Showing) (words : List String) (started : Nat) : IO UInt32 := do
  match Arguments.parse words with
  | .help =>
    IO.println usage
    return 0
  | .refused =>
    IO.eprintln usage
    return 2
  | .verbosity n =>
    let logging := Logging.configure {} n
    let now ← IO.monoMsNow
    IO.eprint (logging.emitEvents (clockText (now - started)) shown.log)
    IO.print shown.output
    return shown.code

end StateSpace

def main (words : List String) : IO UInt32 := do
  let started ← IO.monoMsNow
  match words with
  | name :: rest =>
    match StateSpace.showing? name with
    | some found => StateSpace.present found rest started
    | none =>
      IO.eprintln StateSpace.usage
      return 2
  | [] =>
    IO.eprintln StateSpace.usage
    return 2
