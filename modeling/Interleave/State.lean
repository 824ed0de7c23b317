import Interleave.Assoc
import Interleave.Driver

/-! A state of the search: the actors alive at one point of an execution, with marks for those still to be
tried from it and those tried in full, and the transition taken to leave it. -/

namespace Interleave

inductive Fault where
  | unknownActor (state : Int) (actor : ActorId)
  | notRunnable (state : Int) (actor : ActorId)
  | wrongActor (state : Int) (executed reported : ActorId)
  | insertedTwice
  | noSnapshot
  | noTransition (state : Int)
deriving DecidableEq, Repr

def Fault.detail : Fault → String
  | unknownActor s a => s!"state {s}: unknown actor {a}"
  | notRunnable s a => s!"state {s}: actor {a} is not runnable"
  | wrongActor s a b =>
    s!"state {s}: executed actor {a} but the driver reported a transition of actor {b}"
  | insertedTwice => "visited: state inserted twice"
  | noSnapshot => "no snapshot on the stack"
  | noTransition s => s!"state {s} on the stack has no outgoing transition"

def Fault.message (f : Fault) : String := s!"programming error: {f.detail}"

structure ActorStatus where
  enabled : Bool
  /-- All outcomes have been handed out; never cleared. -/
  done : Bool
  /-- The search still has to try the actor. -/
  todo : Bool
  /-- The number of outcomes of the pending step, at least one. -/
  limit : Int
  /-- The number of outcomes handed out so far. -/
  taken : Int
deriving DecidableEq, Repr, Inhabited

namespace ActorStatus

def fresh (enabled : Bool) (outcomes : Int) : ActorStatus :=
  { enabled, done := false, todo := false, limit := max 1 outcomes, taken := 0 }

def runnable (a : ActorStatus) : Bool := a.todo && a.enabled && !a.done

def markTodo (a : ActorStatus) : ActorStatus := if a.done then a else { a with todo := true }

def consider (a : ActorStatus) : ActorStatus :=
  let taken := a.taken + 1
  if a.limit ≤ taken then { a with taken, done := true, todo := false } else { a with taken }

end ActorStatus

structure State where
  num : Int
  actors : List (ActorId × ActorStatus)
  transition : Option Transition
deriving DecidableEq, Repr, Inhabited

inductive ExecuteError where
  | fault (f : Fault)
  | driver (e : Failure)
deriving DecidableEq, Repr

namespace State

def new (num : Int) (actors : List Actor) : State :=
  { num
    actors := Assoc.ofList (actors.map fun a => (a.id, ActorStatus.fresh a.enabled a.outcomes))
    transition := none }

def status? (s : State) (a : ActorId) : Option ActorStatus := Assoc.get? a s.actors

def ids (s : State) : List ActorId := s.actors.map (·.1)

def enabledIds (s : State) : List ActorId := (s.actors.filter (·.2.enabled)).map (·.1)

def actorCount (s : State) : Nat := s.actors.length

def isEnabled (s : State) (a : ActorId) : Bool := (s.status? a).any (·.enabled)

def hasActor (s : State) (a : ActorId) : Bool := (s.status? a).isSome

def requireStatus (s : State) (a : ActorId) : Except Fault ActorStatus :=
  match s.status? a with
  | some st => .ok st
  | none => .error (.unknownActor s.num a)

def setStatus (s : State) (a : ActorId) (st : ActorStatus) : State :=
  { s with actors := Assoc.insert a st s.actors }

def isDeadlock (s : State) : Bool := !s.actors.isEmpty && s.enabledIds.isEmpty

/-- The lowest actor that is marked, enabled and not done. -/
def next? (s : State) : Option ActorId := (s.actors.find? (·.2.runnable)).map (·.1)

def todoCount (s : State) : Nat := (s.actors.filter (·.2.runnable)).length

def markTodo (s : State) (a : ActorId) : Except Fault State := do
  let st ← s.requireStatus a
  return s.setStatus a st.markTodo

def considerAll (s : State) : State :=
  { s with actors := s.actors.map fun (a, st) =>
      (a, if st.enabled && !st.done then st.markTodo else st) }

def candidates (s : State) : List ActorId :=
  (s.actors.filter fun (_, st) => st.enabled && !st.done).map (·.1)

/-- Marks the lowest enabled actor that is not done. -/
def considerOne (s : State) : State :=
  match s.candidates.head? with
  | some a => { s with actors := Assoc.modify a ActorStatus.markTodo s.actors }
  | none => s

/-- The actors after a step: statuses are inherited without marks, the actor that left `s` is expected to
have a single outcome next, and the reported changes apply in order. -/
def successorActors (s : State) (r : StepResult) : List (ActorId × ActorStatus) :=
  let inherited := s.actors.map fun (a, st) => (a, ActorStatus.fresh st.enabled st.limit)
  let moved := match s.transition with
    | some t => Assoc.modify t.actor (fun st => { st with limit := 1 }) inherited
    | none => inherited
  let enabled := r.enabled.foldl
    (fun m a => Assoc.insert a.id (ActorStatus.fresh true a.outcomes) m) moved
  let disabled := r.disabled.foldl
    (fun m a => match Assoc.get? a m with
      | some st => Assoc.insert a { st with enabled := false } m
      | none => Assoc.insert a (ActorStatus.fresh false 1) m) enabled
  r.finished.foldl (fun m a => Assoc.erase a m) disabled

def successor (s : State) (num : Int) (r : StepResult) : State :=
  { num, actors := s.successorActors r, transition := none }

def take (s : State) (a : ActorId) : Except Fault (Int × State) := do
  let st ← s.requireStatus a
  if !st.enabled || st.done then .error (.notRunnable s.num a)
  else return (st.taken, s.setStatus a st.consider)

/-- Executes the next outcome of the actor and stores the reported transition. The outcome counts as handed
out even if the execution fails. -/
def execute {σ : Type} (s : State) (exec : ActorId → Int → Action σ StepResult) (a : ActorId)
    (m : σ) : Except ExecuteError StepResult × State × σ :=
  match s.take a with
  | .error f => (.error (.fault f), s, m)
  | .ok (outcome, s) =>
    match exec a outcome m with
    | (.error e, m) => (.error (.driver e), s, m)
    | (.ok r, m) =>
      if r.transition.actor = a then (.ok r, { s with transition := some r.transition }, m)
      else (.error (.fault (.wrongActor s.num a r.transition.actor)), s, m)

def render (s : State) : String :=
  s!"State {s.num} ({s.actorCount} actors, {s.todoCount} todo)"

end State

end Interleave
