import Interleave.Driver

/-! The result of an exploration. -/

namespace Interleave

inductive Outcome where
  | noViolation
  | violation
  | nonTermination
  | unknown (code : Int)
deriving DecidableEq, Repr, Inhabited

namespace Outcome

def ofCode (code : Int) : Outcome :=
  match code with
  | 0 => noViolation
  | 1 => violation
  | 2 => nonTermination
  | n => unknown n

def name : Outcome → String
  | noViolation => "no violation"
  | violation => "violation"
  | nonTermination => "non-termination"
  | unknown n => s!"Outcome({n})"

end Outcome

structure Stats where
  /-- States pushed on the stack for the first time, the initial one included. -/
  expanded : Int
  backtracks : Int
  duplicates : Int
  maxDepth : Int
  limitHits : Int
deriving DecidableEq, Repr, Inhabited

namespace Stats

def zero : Stats := ⟨0, 0, 0, 0, 0⟩

def render (s : Stats) : String :=
  s!"{s.expanded} states expanded, {s.backtracks} backtracks, {s.duplicates} duplicates, " ++
    s!"max depth {s.maxDepth}"

end Stats

structure Result where
  outcome : Outcome
  violation : Option Violation
  trace : List Transition
  stats : Stats
deriving DecidableEq, Repr, Inhabited

def Result.record (r : Result) : RecordTrace := RecordTrace.ofTransitions r.trace

end Interleave
