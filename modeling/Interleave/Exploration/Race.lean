import Interleave.Exploration.Search

/-! Race analysis: the frames from which the actor of a later transition has to be tried as well. -/

namespace Interleave.Race

variable {κ : Type}

def outgoing (f : Frame κ) : Except Fault Transition :=
  match f.state.transition with
  | some t => .ok t
  | none => .error (.noTransition f.state.num)

def joined (t : Transition) : List (Frame κ) → Except Fault Clock
  | [] => .ok []
  | f :: below => do
    let earlier ← outgoing f
    let c ← joined t below
    return if earlier.actor = t.actor || t.dependent earlier then c.join f.clock else c

def clockOf (t : Transition) (below : List (Frame κ)) : Except Fault Clock := do
  return Assoc.insert t.actor below.length (← joined t below)

def latestClock (a : ActorId) : List (Frame κ) → Except Fault (Option Clock)
  | [] => .ok none
  | f :: below => do
    let t ← outgoing f
    if t.actor = a then return some f.clock else latestClock a below

/-- Schedules the actor of `t` at one frame whose transition races with `t`. Where the actor is not enabled,
everything that is enabled gets tried. -/
def schedule (t earlier : Transition) (st : State) : State × Event :=
  match st.status? t.actor with
  | some status =>
    if !status.enabled then (st.considerAll, .raceDisabled st.num t.actor earlier)
    else if status.done then (st, .raceDone st.num t.actor earlier)
    else (st.setStatus t.actor status.markTodo, .raceScheduled st.num t.actor earlier)
  | none => (st.considerAll, .raceDisabled st.num t.actor earlier)

/-- Compares `t` with the transition of one frame at a position of the stack. `last` is the clock of the
previous transition of the same actor. -/
def visit (t : Transition) (last : Option Clock) (position : Nat) (f : Frame κ) (earlier : Transition) :
    Frame κ × List Event :=
  if earlier.actor = t.actor || !t.dependent earlier then (f, [])
  else if last.any (·.covers earlier.actor position) then
    (f, [.happenedBefore f.state.num t.actor])
  else
    let (state, e) := schedule t earlier f.state
    ({ f with state }, [e])

def visitAll (t : Transition) (last : Option Clock) :
    List (Frame κ) → Except Fault (List (Frame κ) × List Event)
  | [] => .ok ([], [])
  | f :: below => do
    let earlier ← outgoing f
    let (f, here) := visit t last below.length f earlier
    let (below, later) ← visitAll t last below
    return (f :: below, here ++ later)

def analyse (t : Transition) (below : List (Frame κ)) :
    Except Fault (List (Frame κ) × List Event) := do
  visitAll t (← latestClock t.actor below) below

end Interleave.Race
