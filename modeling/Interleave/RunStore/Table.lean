import Interleave.Text.Integer
import Interleave.Text.Quoted

/-! The table of runs. A statement names the columns that it fills or reads, and values belong to columns by
their positions. The database that answers the statements is known only by its answers; a list of rows is one. -/

namespace Interleave

namespace RunTable

inductive Cell where
  | text (s : String)
  | integer (n : Int)
deriving DecidableEq, Repr, Inhabited

inductive ScanError where
  | count (cells : Nat)
  | number (index : Nat) (type value : String) (e : Text.NumberError)
deriving DecidableEq, Repr

namespace Cell

def toText : Cell → String
  | text s => s
  | integer n => s!"{n}"

/-- Reads a number of 64 bits; `index` and `type` describe the place that it is read into. -/
def toNumber (index : Nat) (type : String) : Cell → Except ScanError Int
  | integer n => .ok n
  | text s =>
    match Text.readInteger 64 s.toList with
    | .ok n => .ok n
    | .error e => .error (.number index type s e)

def le : Cell → Cell → Bool
  | integer m, integer n => m ≤ n
  | integer _, text _ => true
  | text _, integer _ => false
  | text s, text t => s ≤ t

end Cell

inductive Column where
  | id | model | strategy | reduction | outcome | violation | recordTrace
  | expandedStates | backtracks | duplicates | maxDepth | startedAt | durationMs | depthLimitHits
deriving DecidableEq, Repr

namespace Column

def all : List Column :=
  [id, model, strategy, reduction, outcome, violation, recordTrace, expandedStates, backtracks, duplicates,
    maxDepth, startedAt, durationMs, depthLimitHits]

def name : Column → String
  | id => "id"
  | model => "model"
  | strategy => "strategy"
  | reduction => "reduction"
  | outcome => "outcome"
  | violation => "violation"
  | recordTrace => "record_trace"
  | expandedStates => "expanded_states"
  | backtracks => "backtracks"
  | duplicates => "duplicates"
  | maxDepth => "max_depth"
  | startedAt => "started_at"
  | durationMs => "duration_ms"
  | depthLimitHits => "depth_limit_hits"

def initial : Column → Cell
  | model | strategy | reduction | outcome | violation | recordTrace => .text ""
  | _ => .integer 0

end Column

abbrev Row := List (Column × Cell)

namespace Row

def ofValues (columns : List Column) (values : List Cell) : Row :=
  Column.all.map fun c => (c, ((columns.zip values).lookup c).getD c.initial)

def get (row : Row) (c : Column) : Cell := (row.lookup c).getD c.initial

def read (columns : List Column) (row : Row) : List Cell := columns.map row.get

/-- Whether a row comes before another or beside it, where greater values come first and later columns decide
between equal ones. -/
def descending : List Column → Row → Row → Bool
  | [], _, _ => true
  | c :: columns, row, row' =>
    if row.get c = row'.get c then descending columns row row' else (row'.get c).le (row.get c)

end Row

end RunTable

open RunTable (Cell Column Row)

/-- A database with the table of runs. A statement that fails is answered with the text of the cause. -/
structure Database (δ : Type) where
  /-- Inserts a row with values for some columns; the answer is the id that the row got. -/
  insert : List Column → List Cell → δ → Except String Int × δ
  /-- Reads columns of the rows with a value in another column. -/
  selectAt : List Column → Column → Cell → δ → Except String (List (List Cell))
  /-- Reads columns of the rows in descending order of other columns, at most as many as the limit says if it is
  not negative. -/
  select : List Column → List Column → Int → δ → Except String (List (List Cell))

structure RunTable where
  rows : List Row
  /-- The greatest id that was given to a row. -/
  lastId : Int
deriving DecidableEq, Repr, Inhabited

namespace RunTable

def empty : RunTable := ⟨[], 0⟩

def database : Database RunTable where
  insert columns values t :=
    let id := t.lastId + 1
    (.ok id, ⟨t.rows ++ [Row.ofValues (.id :: columns) (.integer id :: values)], id⟩)
  selectAt columns key value t := .ok ((t.rows.filter (·.get key = value)).map (Row.read columns))
  select columns order limit t :=
    let sorted := t.rows.mergeSort (Row.descending order)
    .ok ((if limit < 0 then sorted else sorted.take limit.toNat).map (Row.read columns))

end RunTable

end Interleave
