import Interleave.Assoc
import Interleave.RunStore
import Interleave.Text.Path

/-! Tables of runs by path, at most one of which is open. -/

namespace Interleave

structure Archive where
  tables : List (String × RunTable)
  current : Option String
deriving DecidableEq, Repr, Inhabited

namespace Archive

def empty : Archive := ⟨[], none⟩

def tableAt (a : Archive) (path : String) : RunTable :=
  (Assoc.get? (Text.cleanPath path) a.tables).getD .empty

def openAt (a : Archive) (path : String) : Except StoreError Archive :=
  if Text.trim path = "" then .error .noPath
  else .ok ⟨Assoc.insert (Text.cleanPath path) (a.tableAt path) a.tables, some (Text.cleanPath path)⟩

def close (a : Archive) : Archive := { a with current := none }

def opened (a : Archive) : Except String (String × RunTable) :=
  match a.current with
  | none => .error "sql: database is closed"
  | some path => .ok (path, a.tableAt path)

def database : Database Archive where
  insert columns values a :=
    match a.opened with
    | .error cause => (.error cause, a)
    | .ok (path, t) =>
      let (answer, t) := RunTable.database.insert columns values t
      (answer, { a with tables := Assoc.insert path t a.tables })
  selectAt columns key value a := do RunTable.database.selectAt columns key value (← a.opened).2
  select columns order limit a := do RunTable.database.select columns order limit (← a.opened).2

end Archive

end Interleave
