import Interleave.Program
import Interleave.Text.Json

/-! Steps, guards and snapshot keys written as data. -/

namespace Interleave.Program

inductive Comparison where
  | eq | ne | lt | ge
deriving DecidableEq, Repr

def Comparison.holds : Comparison → Int → Int → Bool
  | .eq, x, y => x = y
  | .ne, x, y => x ≠ y
  | .lt, x, y => x < y
  | .ge, x, y => y ≤ x

structure Condition where
  var : String
  comparison : Comparison
  value : Int
deriving DecidableEq, Repr

def Condition.holds (c : Condition) (v : Vars) : Bool := c.comparison.holds (v.get c.var) c.value

def allHold (cs : List Condition) (v : Vars) : Bool := cs.all (·.holds v)

inductive Operation where
  | set (var : String) (value : Int)
  | add (var : String) (value : Int)
  | copy (var source : String)
  | outcome (var : String)
  | fail (violation : Violation)
deriving DecidableEq, Repr

structure Effect where
  condition : Option Condition
  operation : Operation
deriving DecidableEq, Repr

def Operation.apply (op : Operation) (v : Vars) (outcome : Int) : Vars × Option Violation :=
  match op with
  | .set var value => (v.set var value, none)
  | .add var value => (v.set var (wrap (v.get var + value)), none)
  | .copy var source => (v.set var (v.get source), none)
  | .outcome var => (v.set var outcome, none)
  | .fail violation => (v, some violation)

def runEffects : List Effect → Vars → Int → Vars × Option Violation
  | [], v, _ => (v, none)
  | e :: es, v, outcome =>
    if e.condition.all (·.holds v) then
      match e.operation.apply v outcome with
      | (v, none) => runEffects es v outcome
      | (v, some violation) => (v, some violation)
    else runEffects es v outcome

def Step.custom (kind : Kind) (resource args : String) (choices : Int) (loop : Bool)
    (effects : List Effect) : Step :=
  { kind, resource, args, choices, loop, guard := none
    run := if effects.isEmpty then none else some (runEffects effects) }

def varsKey (_ : List Nat) (v : Vars) : String :=
  "\x7b" ++ ",".intercalate (v.entries.map fun (name, value) => s!"{Text.jsonQuote name}:{value}") ++
    "\x7d"

def positionsKey (positions : List Nat) (_ : Vars) : String :=
  "[" ++ " ".intercalate (positions.map fun n => s!"{n}") ++ "]"

def constantKey (_ : List Nat) (_ : Vars) : String := "k"

end Interleave.Program
