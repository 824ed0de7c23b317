import Interleave.Exploration.Result
import Interleave.Text.Columns

/-! The verdict on an exploration as a text. -/

namespace Interleave.Report

/-- Only an exploration without violation and without cut paths holds. -/
def holds (r : Result) : Bool := r.outcome = .noViolation

def traceLines : Nat → List Transition → String
  | _, [] => ""
  | n, t :: ts => s!"{n}\t-> {t.render}\n" ++ traceLines (n + 1) ts

def describe (r : Result) (headline : String) : String :=
  Text.Columns.align <|
    s!"{headline} Trace ({r.trace.length} transitions):\n" ++ traceLines 1 r.trace ++
    s!"Record trace:\t{RecordTrace.render r.record}\n" ++ s!"{r.stats.render}\n"

def text (r : Result) : String :=
  match r.outcome with
  | .noViolation => s!"No violation found. {r.stats.render}"
  | .violation =>
    let what := (r.violation.map Violation.render).getD "<nil>"
    describe r s!"Violation found: {what}."
  | _ => describe r s!"Maximum depth reached on {r.stats.limitHits} paths."

end Interleave.Report
