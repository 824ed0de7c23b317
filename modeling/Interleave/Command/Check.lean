import Interleave.Command
import Interleave.Exploration.Plan
import Interleave.Model.Load
import Interleave.Replay
import Interleave.Report

/-! Checking a model: an exploration or a replay, the report, the picture of the explored states and the
stored run. -/

namespace Interleave.Command.Check

open Logging

inductive CheckError where
  | config (e : ConfigError)
  | load (e : Model.LoadError)
  | trace (e : TraceError)
  | replay (e : ReplayError)
  | plan (e : PlanError)
  | run (e : RunError)
  | exhausted
  | noGraph
  | dotFile (path why : String)
  | store (e : StoreError)

def CheckError.message : CheckError → String
  | config e => e.message
  | load e => e.message
  | trace e => e.message
  | replay e => e.message
  | plan e => e.message
  | run e => e.message
  | exhausted => "explorer: too many turns"
  | noGraph => "the strategy does not record the explored states"
  | dotFile path why => s!"create dot file: open {path}: {why}"
  | store e => e.message

inductive Verdict where
  | replayed (r : Replayed)
  | explored (r : Result) (graph : Option Graph)

def Verdict.isExplored : Verdict → Bool
  | replayed _ => false
  | explored .. => true

def turns : Nat := 1000000000000000000

section
variable {σ κ : Type}

def runLog (before after : List Entry) (events : List Event) : List Entry :=
  before ++ Event.interleave (after.drop before.length) events

def explore [Snapshot κ] (c : CheckConfig) (drv : Driver σ κ) (m : σ) (journal : σ → List Entry) :
    List Entry × Except CheckError Verdict :=
  let settings := c.settings ++ if c.dotPath = "" then [] else [.recordGraph]
  let strategy := (Strategy.ofName? c.strategy).getD .depthFirst
  match Plan.make strategy.code settings with
  | .error e => (journal m, .error (.plan e))
  | .ok plan =>
    match (Explorer.ofPlan plan m : Explorer σ κ).run drv turns with
    | none => (journal m, .error .exhausted)
    | some (.crashed explorer) =>
      (runLog (journal m) (journal explorer.machine) explorer.events.toList, .error (.run (.aborted .crash)))
    | some (.returned error result explorer) =>
      let log := runLog (journal m) (journal explorer.machine) explorer.events.toList
      match error, result with
      | some e, _ => (log, .error (.run e))
      | none, some r => (log, .ok (.explored r explorer.graph?))
      | none, none => (log, .error .exhausted)

def replay (trace : String) (drv : Driver σ κ) (m : σ) (journal : σ → List Entry) :
    List Entry × Except CheckError Verdict :=
  match RecordTrace.parse trace with
  | .error e => (journal m, .error (.trace e))
  | .ok trace =>
    match Replay.run drv trace m with
    | (_, some e, m) => (journal m, .error (.replay e))
    | (some r, none, m) => (journal m, .ok (.replayed r))
    | (none, none, m) => (journal m, .ok (.replayed ⟨[], none⟩))

/-- A trace to replay takes precedence over exploring. -/
def runDriver [Snapshot κ] (c : CheckConfig) (drv : Driver σ κ) (m : σ)
    (journal : σ → List Entry) : List Entry × Except CheckError Verdict :=
  if c.replay = "" then explore c drv m journal else replay c.replay drv m journal

end

structure Attempt where
  config : CheckConfig
  log : Option Log
  entries : List Entry
  outcome : Except CheckError Verdict

section
variable {ρ : Type} (w : World ρ)

def attempt (c : CheckConfig) : Attempt :=
  match c.validate with
  | .error e => ⟨c, none, [], .error (.config e)⟩
  | .ok _ =>
    match Log.ofConfig c.log with
    | .error e => ⟨c, none, [], .error (.config e)⟩
    | .ok log =>
      if c.model = "" then
        let (connection, peer) := w.dial c.remote
        let (entries, outcome) := runDriver c connection.driver peer fun _ => []
        ⟨c, log, entries, outcome⟩
      else match Model.load c.model (.file c.model (w.file c.model)) with
        | .error e => ⟨c, log, [], .error (.load e)⟩
        | .ok (model, m) =>
          let (entries, outcome) := runDriver c model.driver m fun m => m.journal.toList
          ⟨c, log, entries, outcome⟩

def start (args : List String) : Except Exit Attempt :=
  let p := CheckConfig.parse Environment.read w.environment args
  match p.outcome with
  | .error e => .error (refuse p e)
  | .ok c => .ok (attempt w c)

namespace Attempt

variable (a : Attempt)

def notices (entries : List Entry) : List Notice :=
  match a.log with
  | none => []
  | some log => log.notices entries

def failed (stdout : String) (files : List (String × String)) (e : CheckError) : Exit :=
  let entry : Entry := { level := .error, message := "mcheck failed", fields := [("error", e.message)] }
  { code := 3, stdout, stderr := a.notices a.entries ++ [.entry false entry], files, stored := none }

def replayExit (r : Replayed) : Exit :=
  let (code, verdict) := match r.violation with
    | some v => (1, s!"Violation found: {v.render}.\n")
    | none => (0, "No violation found.\n")
  { code, stdout := String.join (r.transitions.map fun t => t.render ++ "\n") ++ verdict
    stderr := a.notices a.entries, files := [], stored := none }

def exitCode : Outcome → Nat
  | .violation => 1
  | .nonTermination => 2
  | _ => 0

def picture (graph : Option Graph) : Except CheckError (List (String × String)) :=
  let path := a.config.dotPath
  if path = "" then .ok []
  else match graph, w.creationFault path with
    | none, _ => .error .noGraph
    | some _, some why => .error (.dotFile path why)
    | some g, none => .ok [(path, g.dot)]

def runRecord (r : Result) (startedAt duration : Int) : RunRecord :=
  let c := a.config
  let strategy := (Strategy.ofName? c.strategy).getD .depthFirst
  let reduction := (Reduction.ofName? c.reduction).getD .none
  .ofResult (if c.model = "" then c.remote else c.model) strategy.name reduction.name r startedAt duration

def storeRun (r : Result) (startedAt duration : Int) : Except CheckError (Option (Int × RunTable)) :=
  let path := a.config.storePath
  if path = "" then .ok none
  else if Text.trim path = "" then .error (.store .noPath)
  else match w.runs path with
    | .error e => .error (.store e)
    | .ok table =>
      match RunStore.save RunTable.database (startedAt + duration) (a.runRecord r startedAt duration) table with
      | (.error e, _) => .error (.store e)
      | (.ok id, table) => .ok (some (id, table))

def exploredExit (r : Result) (graph : Option Graph) (startedAt duration : Int) : Exit :=
  let stdout := Report.text r ++ "\n"
  match a.picture w graph with
  | .error e => a.failed stdout [] e
  | .ok files =>
    match a.storeRun w r startedAt duration with
    | .error e => a.failed stdout files e
    | .ok none =>
      { code := exitCode r.outcome, stdout, stderr := a.notices a.entries, files, stored := none }
    | .ok (some (id, store)) =>
      let entry : Entry := { level := .info, message := "Run stored", fields := [("run", s!"{id}")] }
      { code := exitCode r.outcome, stdout, stderr := a.notices (a.entries ++ [entry]), files
        stored := some (a.config.storePath, store) }

/-- Writes the verdict, the picture and the run. Times are in nanoseconds. -/
def conclude (startedAt duration : Int) : Exit :=
  match a.outcome with
  | .error e => a.failed "" [] e
  | .ok (.replayed r) => a.replayExit r
  | .ok (.explored r graph) => a.exploredExit w r graph startedAt duration

end Attempt

end

end Interleave.Command.Check
