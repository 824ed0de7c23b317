import Interleave.Exploration.Clock
import Interleave.Exploration.Event
import Interleave.Exploration.Graph
import Interleave.Replay
import Interleave.VisitedSet

/-! The state of a depth first search: the path from the initial state to the current one on a stack, the
driver's machine, and what has been found so far.

The outgoing transition of every frame but the top one leads to the frame above it. -/

namespace Interleave

inductive Phase where
  | init | running | backtracking | done
deriving DecidableEq, Repr, Inhabited

namespace Phase

def ofCode? (code : Int) : Option Phase :=
  match code with
  | 0 => some init
  | 1 => some running
  | 2 => some backtracking
  | 3 => some done
  | _ => none

def name : Phase → String
  | init => "INIT"
  | running => "RUNNING"
  | backtracking => "BACKTRACKING"
  | done => "DONE"

def codeName (code : Int) : String := ((ofCode? code).map name).getD s!"Phase({code})"

end Phase

structure Frame (κ : Type) where
  state : State
  snapshot : Option κ
  /-- The clock of the outgoing transition, kept under partial order reduction. -/
  clock : Clock
  /-- The node of the state in the recorded graph. -/
  node : Tree.Path

inductive Abort where
  | initialActors (e : Failure)
  | initialSnapshot (e : Failure)
  | interrupted (cause : Interruption)
  | execute (actor : ActorId) (state : Int) (e : Failure)
  | snapshot (state : Int) (e : Failure)
  | checkpoint (state : Int) (e : Failure)
  | restore (state : Int) (e : Failure)
  | replay (state : Int) (e : ReplayError)
  | fault (f : Fault)
  /-- The counts of a snapshot were looked up where the driver had given none. Nothing handles this. -/
  | crash
deriving DecidableEq, Repr

def Abort.message : Abort → String
  | initialActors e => s!"explorer: get initial actors: {e.message}"
  | initialSnapshot e => s!"explorer: snapshot initial state: {e.message}"
  | interrupted cause => cause.message
  | execute a s e => s!"explorer: execute actor {a} from state {s}: {e.message}"
  | snapshot s e => s!"explorer: snapshot state {s}: {e.message}"
  | checkpoint s e => s!"explorer: checkpoint state {s}: {e.message}"
  | restore s e => s!"explorer: restore state {s}: {e.message}"
  | replay s e => s!"explorer: replay to state {s}: {e.message}"
  | fault f => f.message
  | crash => "runtime error: invalid memory address or nil pointer dereference"

def Abort.cause? : Abort → Option Failure
  | initialActors e | initialSnapshot e | execute _ _ e | snapshot _ e | checkpoint _ e
  | restore _ e => some e
  | interrupted cause => some (.interrupted cause)
  | replay _ e => e.cause?
  | fault _ | crash => none

structure Search (σ κ : Type) where
  machine : σ
  phase : Phase
  stack : List (Frame κ)
  visited : VisitedSet κ
  nextNum : Int
  stats : Stats
  violation : Option Violation
  trace : List Transition
  truncated : Option (List Transition)
  graph : Option Graph
  events : Array Event

namespace Search

variable {σ κ : Type}

def new (o : Options) (m : σ) : Search σ κ :=
  { machine := m, phase := .init, stack := [], visited := VisitedSet.empty o.maxVisited
    nextNum := 0, stats := Stats.zero, violation := none, trace := [], truncated := none
    graph := none, events := #[] }

def log (s : Search σ κ) (e : Event) : Search σ κ := { s with events := s.events.push e }

def logAll (s : Search σ κ) (es : List Event) : Search σ κ := es.foldl log s

def depth (s : Search σ κ) : Nat := s.stack.length - 1

def stackTrace (s : Search σ κ) : List Transition :=
  s.stack.reverse.filterMap (·.state.transition)

def outcome (s : Search σ κ) : Outcome :=
  if s.violation.isSome then .violation
  else if s.truncated.isSome then .nonTermination
  else .noViolation

def reportedTrace (s : Search σ κ) : List Transition :=
  if s.phase ≠ .done then s.stackTrace
  else match s.outcome with
    | .violation => s.trace
    | .nonTermination => s.truncated.getD []
    | _ => []

def result (s : Search σ κ) : Result :=
  { outcome := s.outcome, violation := s.violation, trace := s.reportedTrace, stats := s.stats }

/-- Puts a frame on the stack. It counts as expanded unless it is put back while backtracking. -/
def push (s : Search σ κ) (f : Frame κ) : Search σ κ :=
  { s with
    stack := f :: s.stack
    stats := { s.stats with
      maxDepth := max s.stats.maxDepth s.stack.length
      expanded := s.stats.expanded + if s.phase = .backtracking then 0 else 1 } }

def addNode (s : Search σ κ) (path : Tree.Path) (n : GraphNode) : Tree.Path × Search σ κ :=
  match s.graph with
  | none => ([], s)
  | some g => (g.nextChild path, { s with graph := some (g.addChild path n) })

def updateNode (s : Search σ κ) (path : Tree.Path) (f : GraphNode → GraphNode) : Search σ κ :=
  { s with graph := s.graph.map (Tree.update path f) }

def consider (o : Options) (st : State) : State :=
  match o.reduction with
  | .dpor => st.considerOne
  | .none => st.considerAll

/-- Ends the search with a violation in the state numbered `num`, reached by the outgoing transition of the
top frame, or in the top frame itself if it has none. -/
def report (s : Search σ κ) (v : Violation) (num : Int) : Search σ κ :=
  let trace := s.stackTrace
  let s := { s with violation := some v, trace }
  let s := match s.stack with
    | [] => s
    | top :: _ =>
      match top.state.transition with
      | none => s.updateNode top.node fun n => { n with violation := some v }
      | some t =>
        (s.addNode top.node { GraphNode.explored num (some t) with violation := some v }).2
  { s.log (.violated v (RecordTrace.ofTransitions trace)) with phase := .done }

def deadlock (st : State) : Violation :=
  let ids := " ".intercalate (st.ids.map fun a => s!"{a}")
  ⟨.deadlock, s!"{st.actorCount} actors blocked: [{ids}]"⟩

def cut (s : Search σ κ) (top : Frame κ) : Search σ κ :=
  let s := { s with
    stats := { s.stats with limitHits := s.stats.limitHits + 1 }
    truncated := some (s.truncated.getD s.stackTrace) }
  let s := s.updateNode top.node fun n => { n with truncated := true }
  s.log (.depthReached top.state.num s.depth)

def nearestSnapshot : List (Frame κ) → Option (List (Frame κ) × Frame κ × κ)
  | [] => none
  | f :: below =>
    match f.snapshot with
    | some k => some ([], f, k)
    | none => (nearestSnapshot below).map fun (above, g, k) => (f :: above, g, k)

def stepsToTop (above : List (Frame κ)) (base : Frame κ) : List Step :=
  ((above ++ [base]).drop 1).reverse.filterMap (·.state.transition.map Transition.step)

/-- Moves the driver to the top frame: restores the nearest snapshot and replays the transitions above. -/
def restoreTop (drv : Driver σ κ) (s : Search σ κ) : Option Abort × Search σ κ :=
  match s.stack, nearestSnapshot s.stack with
  | top :: _, some (above, base, k) =>
    match drv.restore k s.machine with
    | (.error e, m) => (some (.restore base.state.num e), { s with machine := m })
    | (.ok (), m) =>
      let steps := stepsToTop above base
      match Replay.steps drv 0 steps m with
      | (some e, m) => (some (.replay top.state.num e), { s with machine := m })
      | (none, m) =>
        (none, { s with machine := m }.log (.restored top.state.num base.state.num steps.length))
  | _, _ => (some (.fault .noSnapshot), s)

end Search

end Interleave
