import Interleave.Model.Declaration
import Interleave.Script.Chunk
import Interleave.Script.Table

/-! The store of a running script, what a run can raise, and where messages say it happened. -/

namespace Interleave.Script

structure Binding where
  name : String
  cell : Nat
  depth : Nat
deriving DecidableEq, Repr

abbrev Env := List Binding

structure Closure where
  function : Function
  env : Env
  depth : Nat
deriving Inhabited

structure Store where
  chunk : ByteArray
  cells : Array Value
  tables : Array Table
  closures : Array Closure
  globals : Nat
  strings : Nat
  declarations : Model.Declarations Value

inductive Raise where
  | error (message : ByteArray)
  /-- The run was longer than the bound put on it. -/
  | exhausted
deriving DecidableEq

abbrev Run := EStateM Raise Store

/-- The lines of the calls that are under way, innermost first; none for a call from outside the script. -/
abbrev Sites := List (Option Nat)

def exhausted {α : Type} : Run α := throw .exhausted

def raise {α : Type} (message : ByteArray) : Run α := throw (.error message)

def positionText (chunk : ByteArray) (line : Nat) : ByteArray := chunk ++ s!":{line}: ".toUTF8

/-- The position at a level of the calls that are under way, empty if it is not in the script. -/
def positionAt (sites : Sites) (level : Int) : Run ByteArray := do
  match if 1 ≤ level then sites[level.toNat - 1]? else none with
  | some (some line) => return positionText (← get).chunk line
  | _ => return ByteArray.empty

def fault {α : Type} (sites : Sites) (message : ByteArray) : Run α := do
  raise ((← positionAt sites 1) ++ message)

def faultAt {α : Type} (line : Nat) (message : String) : Run α := do
  raise (positionText (← get).chunk line ++ message.toUTF8)

def argumentFault {α : Type} (sites : Sites) (i : Int) (message : String) : Run α :=
  fault sites s!"bad argument #{i} to '?' ({message})".toUTF8

def newCell (v : Value) : Run Nat :=
  modifyGet fun s => (s.cells.size, { s with cells := s.cells.push v })

def readCell (i : Nat) : Run Value := do return (← get).cells.getD i .nil

def writeCell (i : Nat) (v : Value) : Run Unit :=
  modify fun s => { s with cells := s.cells.setIfInBounds i v }

def newTable (t : Table) : Run Nat :=
  modifyGet fun s => (s.tables.size, { s with tables := s.tables.push t })

def readTable (id : Nat) : Run Table := do return (← get).tables.getD id .empty

def changeTable (id : Nat) (f : Table → Table) : Run Unit :=
  modify fun s => { s with tables := s.tables.modify id f }

def newClosure (c : Closure) : Run Value :=
  modifyGet fun s => (.closure s.closures.size, { s with closures := s.closures.push c })

def checkKey (line : Nat) : Value → Run Unit
  | .nil => faultAt line "table index is nil"
  | .number x => if x.isNaN then faultAt line "table index is NaN" else pure ()
  | _ => pure ()

def lessThan? : Value → Value → Option Bool
  | .number x, .number y => some (x.lt y)
  | .string s, .string t => some (decide (s.data.toList < t.data.toList))
  | _, _ => none

def atMost? : Value → Value → Option Bool
  | .number x, .number y => some (x.le y)
  | .string s, .string t => some (decide (¬ t.data.toList < s.data.toList))
  | _, _ => none

def unordered (v w : Value) : String :=
  if v.typeName = w.typeName then s!"attempt to compare two '{v.typeName}' values"
  else s!"attempt to compare '{v.typeName}' with '{w.typeName}'"

end Interleave.Script
