import Interleave.Exploration.Result
import Interleave.RunStore.Table
import Interleave.Text.Blank
import Interleave.Word

/-! Finished runs and the store that keeps them in a database. Times are whole nanoseconds from the epoch; the store
keeps milliseconds. -/

namespace Interleave

structure RunRecord where
  id : Int
  model : String
  strategy : String
  reduction : String
  outcome : String
  violation : String
  record : String
  stats : Stats
  startedAt : Int
  duration : Int
deriving DecidableEq, Repr, Inhabited

namespace RunRecord

def ofResult (model strategy reduction : String) (r : Result) (startedAt duration : Int) : RunRecord :=
  { id := 0, model, strategy, reduction, outcome := r.outcome.name
    violation := (r.violation.map Violation.render).getD ""
    record := RecordTrace.render r.record
    stats := r.stats, startedAt, duration }

def nanosPerMilli : Int := 1000000

/-- The start in whole milliseconds, rounded down. A start that is too far from the epoch wraps around. -/
def startedMillis (r : RunRecord) : Int := wrap (r.startedAt.fdiv nanosPerMilli)

/-- The duration in whole milliseconds, rounded toward zero. -/
def durationMillis (r : RunRecord) : Int := r.duration.tdiv nanosPerMilli

def noStart : Int := -62135596800000000000

end RunRecord

inductive StoreError where
  | noPath
  | noModel
  | notFound (id : Int)
  | database (action cause : String)
  | unreadable (action : String) (e : RunTable.ScanError)
  | damaged (path : String)
deriving DecidableEq, Repr

namespace RunStore

open RunTable (Cell Column ScanError)

def savedColumns : List Column :=
  [.model, .strategy, .reduction, .outcome, .violation, .recordTrace,
    .expandedStates, .backtracks, .duplicates, .maxDepth, .depthLimitHits,
    .startedAt, .durationMs]

def savedValues (r : RunRecord) : List Cell :=
  [.text r.model, .text r.strategy, .text r.reduction, .text r.outcome, .text r.violation, .text r.record,
    .integer r.stats.expanded, .integer r.stats.backtracks, .integer r.stats.duplicates,
    .integer r.stats.maxDepth, .integer r.stats.limitHits,
    .integer r.startedMillis, .integer r.durationMillis]

variable {δ : Type} (db : Database δ)

/-- A run needs a model that is not blank. One without a start is taken to start `now`. -/
def save (now : Int) (r : RunRecord) (d : δ) : Except StoreError Int × δ :=
  if Text.trim r.model = "" then (.error .noModel, d)
  else
    let r := if r.startedAt = RunRecord.noStart then { r with startedAt := now } else r
    match db.insert savedColumns (savedValues r) d with
    | (.ok id, d) => (.ok id, d)
    | (.error cause, d) => (.error (.database "save run" cause), d)

def runColumns : List Column :=
  [.id, .model, .strategy, .reduction, .outcome, .violation, .recordTrace,
    .expandedStates, .backtracks, .duplicates, .maxDepth, .depthLimitHits, .startedAt, .durationMs]

def scan : List Cell → Except ScanError RunRecord
  | [id, model, strategy, reduction, outcome, violation, record, expanded, backtracks, duplicates, maxDepth,
      limitHits, startedAt, duration] => do
    let id ← id.toNumber 0 "int64"
    let expanded ← expanded.toNumber 7 "int"
    let backtracks ← backtracks.toNumber 8 "int"
    let duplicates ← duplicates.toNumber 9 "int"
    let maxDepth ← maxDepth.toNumber 10 "int"
    let limitHits ← limitHits.toNumber 11 "int"
    let startedAt ← startedAt.toNumber 12 "int64"
    let duration ← duration.toNumber 13 "int64"
    return {
      id
      model := model.toText, strategy := strategy.toText, reduction := reduction.toText
      outcome := outcome.toText, violation := violation.toText, record := record.toText
      stats := { expanded, backtracks, duplicates, maxDepth, limitHits }
      startedAt := startedAt * RunRecord.nanosPerMilli
      duration := duration * RunRecord.nanosPerMilli }
  | cells => .error (.count cells.length)

def scanFor (action : String) (cells : List Cell) : Except StoreError RunRecord :=
  match scan cells with
  | .ok r => .ok r
  | .error e => .error (.unreadable action e)

def get (d : δ) (id : Int) : Except StoreError RunRecord :=
  match db.selectAt runColumns .id (.integer id) d with
  | .ok (cells :: _) => scanFor s!"get run {id}" cells
  | .ok [] => .error (.notFound id)
  | .error cause => .error (.database s!"get run {id}" cause)

/-- The latest runs first, and of runs with one start the one saved last; limits below one list all. -/
def list (d : δ) (limit : Int) : Except StoreError (List RunRecord) :=
  let limit := if limit < 1 then -1 else limit
  match db.select runColumns [.startedAt, .id] limit d with
  | .ok rows => rows.mapM (scanFor "list runs")
  | .error cause => .error (.database "list runs" cause)

end RunStore

def RunTable.ScanError.message : RunTable.ScanError → String
  | count cells => s!"sql: expected {cells} destination arguments in Scan, not {RunStore.runColumns.length}"
  | number index type value e =>
    let name := (RunStore.runColumns[index]?.map RunTable.Column.name).getD ""
    s!"sql: Scan error on column index {index}, name {Text.quote name}: " ++
      s!"converting driver.Value type string ({Text.quote value}) to a {type}: {e.message}"

def StoreError.message : StoreError → String
  | noPath => "storage: path is required"
  | noModel => "storage: run without model"
  | notFound id => s!"id {id}: storage: run not found"
  | database action cause => s!"storage: {action}: {cause}"
  | unreadable action e => s!"storage: {action}: {e.message}"
  | damaged path => s!"storage: open: {path} holds no runs"

end Interleave
