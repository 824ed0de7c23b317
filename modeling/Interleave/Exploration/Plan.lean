import Interleave.Exploration.Run

/-! Choosing a strategy and running it. -/

namespace Interleave

structure Plan where
  strategy : Strategy
  options : Options
deriving DecidableEq, Repr

inductive PlanError where
  | unknownStrategy (code : Int)
  | option (e : OptionError)
deriving DecidableEq, Repr

def PlanError.message : PlanError → String
  | unknownStrategy n => s!"explorer: unknown strategy {n}"
  | option e => e.message

def Plan.make (strategy : Int) (settings : List Setting) : Except PlanError Plan :=
  match Strategy.ofCode? strategy with
  | none => .error (.unknownStrategy strategy)
  | some strategy =>
    match Options.ofSettings settings with
    | .ok options => .ok { strategy, options }
    | .error e => .error (.option e)

inductive RunError where
  | aborted (a : Abort)
  | alreadyRun
  | unfoldingUnsupported
deriving DecidableEq, Repr

def RunError.message : RunError → String
  | aborted a => a.message
  | alreadyRun => "explorer: exploration already started"
  | unfoldingUnsupported => "explorer: UDPOR exploration is not supported"

structure Span where
  name : String
  attributes : List (String × String)
  error : Option String
deriving DecidableEq, Repr

inductive Explorer (σ κ : Type) where
  | depthFirst (o : Options) (s : Search σ κ)
  | unfolding (m : σ) (events : Array Event)

/-- What becomes of a call of an explorer: it returns an error, a result or both, or it crashes. -/
inductive Ending (σ κ : Type) where
  | returned (error : Option RunError) (result : Option Result) (after : Explorer σ κ)
  | crashed (after : Explorer σ κ)

namespace Explorer

variable {σ κ : Type}

def ofPlan (p : Plan) (m : σ) : Explorer σ κ :=
  match p.strategy with
  | .depthFirst => depthFirst p.options (Search.new p.options m)
  | .unfolding => unfolding m #[]

def conclude (o : Options) (ended : Option Abort × Search σ κ) : Ending σ κ :=
  match ended with
  | (some .crash, s) => .crashed (depthFirst o s)
  | (abort, s) => .returned (abort.map .aborted) (some s.result) (depthFirst o s)

def run [Snapshot κ] (drv : Driver σ κ) (fuel : Nat) : Explorer σ κ → Option (Ending σ κ)
  | unfolding m events =>
    some (.returned (some .unfoldingUnsupported) none (unfolding m (events.push .unfoldingRequested)))
  | depthFirst o s =>
    if s.phase ≠ .init then some (.returned (some .alreadyRun) none (depthFirst o s))
    else (Search.run drv o fuel s.machine).map (conclude o)

def events : Explorer σ κ → Array Event
  | depthFirst _ s => s.events
  | unfolding _ events => events

def machine : Explorer σ κ → σ
  | depthFirst _ s => s.machine
  | unfolding m _ => m

def reportedTrace : Explorer σ κ → List Transition
  | depthFirst _ s => s.reportedTrace
  | unfolding _ _ => []

def record (e : Explorer σ κ) : RecordTrace := RecordTrace.ofTransitions e.reportedTrace

def phase? : Explorer σ κ → Option Phase
  | depthFirst _ s => some s.phase
  | unfolding _ _ => none

def graph? : Explorer σ κ → Option Graph
  | depthFirst _ s => s.graph
  | unfolding _ _ => none

def span (o : Options) (error : Option RunError) (result : Result) : Span :=
  { name := "explorer.Run"
    attributes :=
      [("mcheck.reduction", o.reduction.name),
       ("mcheck.max_depth", s!"{o.maxDepth}"),
       ("mcheck.max_visited_states", s!"{o.maxVisited}"),
       ("mcheck.outcome", result.outcome.name),
       ("mcheck.expanded_states", s!"{result.stats.expanded}"),
       ("mcheck.duplicates", s!"{result.stats.duplicates}")]
    error := error.map RunError.message }

end Explorer

end Interleave
