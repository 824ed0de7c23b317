import Interleave.Failure
import Interleave.Trace
import Interleave.Violation

/-! A driver runs the steps of a checked program one at a time, captures its state and moves it back.

A driver is a state machine: each call maps the machine's state to an answer and the next state. Nothing
else is assumed here, so an answer may depend on all earlier calls. -/

namespace Interleave

structure Actor where
  id : ActorId
  enabled : Bool
  /-- The number of outcomes of its pending step; values below one count as one. -/
  outcomes : Int
deriving DecidableEq, Repr, Inhabited

/-- What one executed step changed. The actor that moved is in exactly one of the three lists, other actors
only if their status changed. -/
structure StepResult where
  transition : Transition
  enabled : List Actor
  disabled : List ActorId
  finished : List ActorId
  violation : Option Violation
deriving DecidableEq, Repr, Inhabited

/-- A captured program state. Counting actors and bytes is cheap and rules out most comparisons. -/
class Snapshot (κ : Type) where
  actorCount : κ → Int
  heapBytes : κ → Int
  same : κ → κ → Bool

/-- An action of a machine with states `σ`; a failing action may still move the machine. -/
abbrev Action (σ α : Type) := σ → Except Failure α × σ

structure Driver (σ κ : Type) where
  initialActors : Action σ (List Actor)
  execute : ActorId → Int → Action σ StepResult
  snapshot : Action σ (Option κ)
  restore : κ → Action σ Unit
  interrupted : σ → Option Interruption

inductive Call where
  | initialActors
  | execute (actor : ActorId)
  | snapshot
  | restore
deriving DecidableEq, Repr

/-- A snapshot handed to a driver: one of its own, or one of another type. -/
inductive Offered (κ : Type) where
  | own (snapshot : κ)
  | foreign (typeName : String)

end Interleave
