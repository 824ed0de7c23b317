import Interleave.Exploration.Options
import Interleave.Exploration.Result
import Interleave.Logging.Entry
import Interleave.State

/-! What happens during an exploration, as it appears in the log. -/

namespace Interleave

open Logging

inductive Event where
  | started (actors : Nat) (reduction : Reduction) (maxDepth : Int)
  | executed (state : Int) (depth : Nat) (transition : Transition)
  | visited (state equal first : Int)
  | inserted (state : Int) (total : Nat)
  | evicted (state : Int)
  | pruned (state equal : Int)
  | backtracked (depth : Int)
  | deleted (state : Int) (depth : Nat)
  | restored (state snapshot : Int) (replayed : Nat)
  | happenedBefore (state : Int) (actor : ActorId)
  | raceDisabled (state : Int) (actor : ActorId) (dependent : Transition)
  | raceDone (state : Int) (actor : ActorId) (dependent : Transition)
  | raceScheduled (state : Int) (actor : ActorId) (dependent : Transition)
  | depthReached (state : Int) (depth : Nat)
  | violated (violation : Violation) (trace : RecordTrace)
  | aborted (fault : Fault)
  | finished (outcome : Outcome) (stats : Stats)
  | unfoldingRequested
deriving DecidableEq, Repr

namespace Event

def race (message : String) (state : Int) (actor : ActorId) (dependent : Transition) : Entry :=
  { level := .debug
    message
    fields := [("state", s!"{state}"), ("actor", s!"{actor}"), ("dependent", dependent.render)] }

def describe : Event → Entry
  | started actors reduction maxDepth =>
    { level := .info
      message := "Start exploration"
      fields := [("actors", s!"{actors}"), ("reduction", reduction.name),
        ("maxDepth", s!"{maxDepth}")] }
  | executed state depth t =>
    { level := .debug
      message := "Execute"
      fields := [("state", s!"{state}"), ("depth", s!"{depth}"), ("actor", s!"{t.actor}"),
        ("transition", t.render)] }
  | visited state equal first =>
    { level := .debug
      message := "State already visited"
      fields := [("state", s!"{state}"), ("equal", s!"{equal}"), ("original", s!"{first}")] }
  | inserted state total =>
    { level := .debug
      message := "Insert new visited state"
      fields := [("state", s!"{state}"), ("total", s!"{total}")] }
  | evicted state =>
    { level := .debug
      message := "Remove visited state (maximum number of stored states reached)"
      fields := [("state", s!"{state}")] }
  | pruned state equal =>
    { level := .debug
      message := "State already visited, exploration stopped on this path"
      fields := [("state", s!"{state}"), ("equal", s!"{equal}")] }
  | backtracked depth =>
    { level := .debug, message := "Backtrack", fields := [("depth", s!"{depth}")] }
  | deleted state depth =>
    { level := .debug
      message := "Delete state"
      fields := [("state", s!"{state}"), ("depth", s!"{depth}")] }
  | restored state snapshot replayed =>
    { level := .debug
      message := "Restore state"
      fields := [("state", s!"{state}"), ("snapshot", s!"{snapshot}"),
        ("replayed", s!"{replayed}")] }
  | happenedBefore state actor =>
    { level := .trace
      message := "Dependent transition happened before"
      fields := [("state", s!"{state}"), ("actor", s!"{actor}")] }
  | raceDisabled state actor t =>
    race "Dependent transitions, actor not enabled earlier" state actor t
  | raceDone state actor t => race "Dependent transitions, actor in done set" state actor t
  | raceScheduled state actor t => race "Dependent transitions" state actor t
  | depthReached state depth =>
    { level := .warning
      message := "Max depth reached"
      fields := [("state", s!"{state}"), ("depth", s!"{depth}")] }
  | violated violation trace =>
    { level := .warning
      message := "Violation found"
      fields := [("violation", violation.render), ("trace", RecordTrace.render trace)] }
  | aborted fault =>
    { level := .error, message := "Exploration aborted", fields := [("error", fault.message)] }
  | finished outcome stats =>
    { level := .info
      message := "Exploration done"
      fields := [("outcome", outcome.name), ("expanded", s!"{stats.expanded}"),
        ("dups", s!"{stats.duplicates}")] }
  | unfoldingRequested => { level := .error, message := "UDPOR exploration requested", fields := [] }

def entry (e : Event) : Entry :=
  let tag := match e with
    | unfoldingRequested => "udpor"
    | _ => "dfs"
  let d := e.describe
  { d with fields := d.fields ++ [("explorer", tag)] }

/-- How many log entries a driver that logs each step and each restored snapshot makes between the event
before this one and this one; none stands for all that are left. -/
def driverEntries : Event → Option Nat
  | started .. => some 0
  | executed .. => some 1
  | restored _ _ replayed => some (replayed + 1)
  | aborted _ | finished .. => none
  | _ => some 0

def interleave (own : List Entry) : List Event → List Entry
  | [] => own
  | e :: rest =>
    match e.driverEntries with
    | some n => own.take n ++ e.entry :: interleave (own.drop n) rest
    | none => own ++ e.entry :: interleave [] rest

end Event

end Interleave
