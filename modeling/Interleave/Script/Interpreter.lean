import Interleave.Interpreter
import Interleave.Script.Session

/-! Running scripts as an interpreter that models can be started on. -/

namespace Interleave.Script

open Interpreter (Key)

namespace Value

def outside : Value → Interpreter.Value Nat
  | nil => .nil
  | bool b => .bool b
  | number x => .number x
  | string s => .string s
  | table id => .table id
  | v => .other v.typeName

def inside : Interpreter.Value Nat → Value
  | .nil | .other _ => nil
  | .bool b => bool b
  | .number x => number x
  | .string s => string s
  | .table id => table id

def key : Value → Key Value
  | number x =>
    match x.toInt? with
    | some n => if 1 ≤ n then .position n.toNat else .other (Table.canonicalKey (number x))
    | none => .other (Table.canonicalKey (number x))
  | string s => .string s
  | v => .other v

end Value

namespace Table

def keys (t : Table) : List (Key Value) :=
  (List.range t.items.size).filterMap (fun i => if t.item (i + 1) = .nil then none else some (.position (i + 1)))
    ++ t.fields.filterMap fun (k, v) => if v = .nil then none else some k.key

def getKey (t : Table) : Key Value → Value
  | .position n => t.item n
  | .string s => t.get (.string s)
  | .other k => if k.key = .other k then t.get k else .nil

def setKey (t : Table) (k : Key Value) (v : Value) : Table :=
  match k with
  | .position n => t.setInt n v
  | .string s => t.set (.string s) v
  | .other k => t.set k v

end Table

namespace Store

def stateKey : Value := .text "state"

def state (s : Store) : Value := (s.tables.getD s.globals .empty).get stateKey

def setState (s : Store) (v : Value) : Store :=
  { s with tables := s.tables.modify s.globals fun t => t.set stateKey v }

end Store

def interpreter : Interpreter Store Nat Value Value where
  call f args s :=
    match s.call f (s.state :: args.map Value.int) with
    | (.error e, s) => (.error e.message, s)
    | (.ok results, s) => (.ok (results.map Value.outside), s)
  state s := s.state.outside
  setState v s := s.setState (.inside v)
  length r s := (s.tables.getD r .empty).length
  keys r s := (s.tables.getD r .empty).keys
  get r k s := ((s.tables.getD r .empty).getKey k).outside
  put r k v s := { s with tables := s.tables.modify r fun t => t.setKey k (.inside v) }
  create n s := (s.tables.size, { s with tables := s.tables.push ⟨Array.replicate n .nil, [], none⟩ })

end Interleave.Script
