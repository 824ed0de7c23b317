import Interleave.Exploration.Race

/-! Running a depth first search: one turn executes one transition or backtracks, and a run takes turns until
the stack is empty, a violation is found or the driver fails. -/

namespace Interleave.Search

variable {σ κ : Type}

/-- Pops up to `count` frames until one with actors left to try is found, and moves the driver back to it.
Under partial order reduction the transition of every popped frame is first analysed for races. -/
def unwind (drv : Driver σ κ) (o : Options) : Nat → Search σ κ → Option Abort × Search σ κ
  | 0, s => (none, s)
  | count + 1, s =>
    match s.stack with
    | [] => (none, s)
    | f :: below =>
      let analysed := match o.reduction, f.state.transition with
        | .dpor, some t => Race.analyse t below
        | _, _ => .ok (below, [])
      match analysed with
      | .error fault => (some (.fault fault), { s with stack := below })
      | .ok (below, events) =>
        let s := { s with stack := below }.logAll events
        if 0 < f.state.todoCount && o.withinDepth below.length then
          match restoreTop drv (s.push f) with
          | (none, s) => (none, { s with phase := .running })
          | (some a, s) => (some a, s)
        else unwind drv o count (s.log (.deleted f.state.num below.length))

def backtrack (drv : Driver σ κ) (o : Options) (s : Search σ κ) : Option Abort × Search σ κ :=
  let s := { s with
    phase := .backtracking
    stats := { s.stats with backtracks := s.stats.backtracks + 1 } }
  unwind drv o s.stack.length (s.log (.backtracked (s.stack.length - 1 : Int)))

def skip (drv : Driver σ κ) (o : Options) (s : Search σ κ) (top : Frame κ) (next : State)
    (old : VisitedEntry κ) : Option Abort × Search σ κ :=
  let s := s.log (.visited next.num old.num old.first)
  let s := { s with stats := { s.stats with duplicates := s.stats.duplicates + 1 } }
  let node := { GraphNode.explored next.num top.state.transition with equalTo := old.first }
  let s := (s.addNode top.node node).2.log (.pruned next.num old.num)
  if top.state.todoCount = 0 then backtrack drv o s else restoreTop drv s

def enter (o : Options) (s : Search σ κ) (top : Frame κ) (next : State) (snapshot : Option κ) :
    Search σ κ :=
  let (node, s) := s.addNode top.node (GraphNode.explored next.num top.state.transition)
  s.push { state := consider o next, snapshot, clock := [], node }

/-- Decides what to do with `next`, the state reached by the outgoing transition of the top frame. -/
def arrive [Snapshot κ] (drv : Driver σ κ) (o : Options) (s : Search σ κ) (top : Frame κ) (next : State) :
    Option Abort × Search σ κ :=
  if 0 < o.maxVisited then
    match drv.snapshot s.machine with
    | (.error e, m) => (some (.snapshot next.num e), { s with machine := m })
    | (.ok none, m) => (some .crash, { s with machine := m })
    | (.ok (some k), m) =>
      let (visited, addition, _) := s.visited.add next.num k
      let s := { s with machine := m, visited }
      match addition with
      | .repeated => (some (.fault .insertedTwice), s)
      | .duplicate old => skip drv o s top next old
      | .inserted total gone =>
        let s := (s.log (.inserted next.num total)).logAll (gone.map .evicted)
        (none, enter o s top next (some k))
  else if 0 < o.checkpoint ∧ next.num % o.checkpoint = 0 then
    match drv.snapshot s.machine with
    | (.error e, m) => (some (.checkpoint next.num e), { s with machine := m })
    | (.ok snapshot, m) => (none, enter o { s with machine := m } top next snapshot)
  else (none, enter o s top next none)

def advance [Snapshot κ] (drv : Driver σ κ) (o : Options) (s : Search σ κ) (top : Frame κ)
    (below : List (Frame κ)) (a : ActorId) : Option Abort × Search σ κ :=
  match top.state.execute drv.execute a s.machine with
  | (.error e, state, m) =>
    let s := { s with machine := m, stack := { top with state } :: below }
    match e with
    | .fault f => (some (.fault f), s)
    | .driver e => (some (.execute a state.num e), s)
  | (.ok r, state, m) =>
    let clock := match o.reduction with
      | .dpor => Race.clockOf r.transition below
      | .none => .ok []
    match clock with
    | .error f => (some (.fault f), { s with machine := m, stack := { top with state } :: below })
    | .ok clock =>
      let top := { top with state, clock }
      let s := { s with machine := m, stack := top :: below, nextNum := s.nextNum + 1 }.log
        (.executed state.num below.length r.transition)
      let num := s.nextNum - 1
      match r.violation with
      | some v => (none, s.report v num)
      | none =>
        let next := state.successor num r
        if next.isDeadlock then (none, s.report (deadlock next) num)
        else arrive drv o s top next

def turn [Snapshot κ] (drv : Driver σ κ) (o : Options) (s : Search σ κ) : Option Abort × Search σ κ :=
  match drv.interrupted s.machine with
  | some cause => (some (.interrupted cause), s)
  | none =>
    match s.stack with
    | [] => (none, s)
    | top :: below =>
      if !o.withinDepth below.length then
        backtrack drv o (if 0 < top.state.todoCount then s.cut top else s)
      else
        match top.state.next? with
        | none => backtrack drv o s
        | some a => advance drv o s top below a

def start [Snapshot κ] (drv : Driver σ κ) (o : Options) (s : Search σ κ) : Option Abort × Search σ κ :=
  match drv.initialActors s.machine with
  | (.error e, m) => (some (.initialActors e), { s with machine := m })
  | (.ok actors, m) =>
    let root := State.new s.nextNum actors
    let s := { s with machine := m, nextNum := s.nextNum + 1 }
    match drv.snapshot s.machine with
    | (.error e, m) => (some (.initialSnapshot e), { s with machine := m })
    | (.ok snapshot, m) =>
      let s := { s with machine := m }
      let entered := if 0 < o.maxVisited then
          match snapshot with
          | none => none
          | some k =>
            let (visited, _, _) := s.visited.add root.num k
            some ({ s with visited }.log (.inserted root.num 0))
        else some s
      match entered with
      | none => (some .crash, s)
      | some s =>
        let root := consider o root
        let s := { s with
          graph := if o.graph then some (Tree.leaf (GraphNode.explored root.num none)) else none }
        let s := s.push { state := root, snapshot, clock := [], node := [] }
        let s := { s.log (.started root.actorCount o.reduction o.maxDepth) with phase := .running }
        (none, if root.isDeadlock then s.report (deadlock root) root.num else s)

def finished (s : Search σ κ) : Bool := s.stack.isEmpty || s.phase = .done

/-- Takes turns until the search is finished or aborted; none if that takes more than `fuel` turns. -/
def loop [Snapshot κ] (drv : Driver σ κ) (o : Options) :
    Nat → Search σ κ → Option (Option Abort × Search σ κ)
  | 0, s => if s.finished then some (none, s) else none
  | fuel + 1, s =>
    if s.finished then some (none, s)
    else match turn drv o s with
      | (some a, s) => some (some a, s)
      | (none, s) => loop drv o fuel s

/-- Closes a run: logs how it ended and marks it done, unless it crashed. -/
def close (ended : Option Abort × Search σ κ) : Option Abort × Search σ κ :=
  match ended with
  | (some .crash, s) => (some .crash, s)
  | (some (.fault f), s) => (some (.fault f), { s.log (.aborted f) with phase := .done })
  | (some a, s) => (some a, { s with phase := .done })
  | (none, s) => (none, { s.log (.finished s.outcome s.stats) with phase := .done })

def run [Snapshot κ] (drv : Driver σ κ) (o : Options) (fuel : Nat) (m : σ) :
    Option (Option Abort × Search σ κ) :=
  match start drv o (new o m) with
  | (some a, s) => some (close (some a, s))
  | (none, s) => (loop drv o fuel s).map close

end Interleave.Search
