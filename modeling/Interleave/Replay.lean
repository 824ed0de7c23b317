import Interleave.State

/-! Replaying a record trace against a driver. -/

namespace Interleave

inductive ReplayError where
  | initialActors (e : Failure)
  | interrupted (cause : Interruption)
  | notEnabled (index : Nat) (actor : ActorId)
  | noOutcome (index : Nat) (actor : ActorId) (limit outcome : Int)
  | execute (index : Nat) (actor : ActorId) (e : Failure)
  | wrongActor (index : Nat) (executed reported : ActorId)
  | unexpectedViolation (index : Nat) (violation : Violation)
deriving DecidableEq, Repr

namespace ReplayError

def unreplayableText : String := "replay: step can not be replayed"

def message : ReplayError → String
  | initialActors e => s!"replay: get initial actors: {e.message}"
  | interrupted cause => cause.message
  | notEnabled i a => s!"step {i}: actor {a} is not enabled: {unreplayableText}"
  | noOutcome i a limit outcome =>
    s!"step {i}: actor {a} has {limit} outcomes, got outcome {outcome}: {unreplayableText}"
  | execute i a e => s!"step {i}: replay: execute actor {a}: {e.message}"
  | wrongActor i a b =>
    s!"step {i}: executed actor {a} but the driver reported actor {b}: {unreplayableText}"
  | unexpectedViolation i v => s!"step {i}: unexpected violation: {v.render}: {unreplayableText}"

def cause? : ReplayError → Option Failure
  | initialActors e | execute _ _ e => some e
  | interrupted cause => some (.interrupted cause)
  | notEnabled .. | noOutcome .. | wrongActor .. | unexpectedViolation .. => none

end ReplayError

structure Replayed where
  transitions : List Transition
  violation : Option Violation
deriving DecidableEq, Repr

namespace Replayed

def record (r : Replayed) : RecordTrace := RecordTrace.ofTransitions r.transitions

def complaint (r : Replayed) : Option String :=
  r.violation.map fun v => s!"replay: {v.render} after {Text.quote (RecordTrace.render r.record)}"

end Replayed

namespace Replay

variable {σ κ : Type}

/-- Executes one step without looking at the enabled actors. -/
def executeStep (drv : Driver σ κ) (index : Nat) (step : Step) (m : σ) :
    Except ReplayError StepResult × σ :=
  match drv.execute step.actor step.outcome m with
  | (.error e, m) => (.error (.execute index step.actor e), m)
  | (.ok r, m) =>
    if r.transition.actor = step.actor then (.ok r, m)
    else (.error (.wrongActor index step.actor r.transition.actor), m)

/-- Moves a driver along a path that has been executed before, on which no violation can occur. -/
def steps (drv : Driver σ κ) (index : Nat) : List Step → σ → Option ReplayError × σ
  | [], m => (none, m)
  | step :: rest, m =>
    match executeStep drv index step m with
    | (.error e, m) => (some e, m)
    | (.ok r, m) =>
      match r.violation with
      | some v => (some (.unexpectedViolation index v), m)
      | none => steps drv (index + 1) rest m

def blocked (s : State) : Option Violation :=
  if s.isDeadlock then some ⟨.deadlock, s!"{s.actorCount} actors blocked"⟩ else none

def refusal? (s : State) (index : Nat) (step : Step) : Option ReplayError :=
  match s.status? step.actor with
  | none => some (.notEnabled index step.actor)
  | some st =>
    if !st.enabled then some (.notEnabled index step.actor)
    else if st.limit ≤ step.outcome then
      some (.noOutcome index step.actor st.limit step.outcome)
    else none

/-- Follows a trace from a state, checking each step against the enabled actors, up to the first
violation. -/
def follow (drv : Driver σ κ) (index : Nat) (s : State) :
    RecordTrace → σ → Replayed × Option ReplayError × σ
  | [], m => (⟨[], blocked s⟩, none, m)
  | step :: rest, m =>
    match drv.interrupted m with
    | some cause => (⟨[], none⟩, some (.interrupted cause), m)
    | none =>
      match refusal? s index step with
      | some e => (⟨[], none⟩, some e, m)
      | none =>
        match executeStep drv index step m with
        | (.error e, m) => (⟨[], none⟩, some e, m)
        | (.ok r, m) =>
          match r.violation with
          | some v => (⟨[r.transition], some v⟩, none, m)
          | none =>
            let (later, e, m) := follow drv (index + 1) (s.successor (index + 1) r) rest m
            ({ later with transitions := r.transition :: later.transitions }, e, m)

def run (drv : Driver σ κ) (trace : RecordTrace) (m : σ) :
    Option Replayed × Option ReplayError × σ :=
  match drv.initialActors m with
  | (.error e, m) => (none, some (.initialActors e), m)
  | (.ok actors, m) =>
    let (replayed, e, m) := follow drv 0 (State.new 0 actors) trace m
    (some replayed, e, m)

end Replay

end Interleave
