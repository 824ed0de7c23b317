import Interleave.Double
import Interleave.Text.Bytes

/-! What a model asks of the interpreter of its script: the global `state`, tables that are known by references, and
calls of functions. How scripts run is left open. -/

namespace Interleave

namespace Interpreter

/-- A value as it is read from outside. Functions and the like are told by the names of their types only. -/
inductive Value (ρ : Type) where
  | nil
  | bool (b : Bool)
  | number (x : Double)
  | string (s : ByteArray)
  | table (r : ρ)
  | other (typeName : String)
deriving DecidableEq

/-- A key of a table: a position from one on, a string, or one of the keys `κ` that are neither. -/
inductive Key (κ : Type) where
  | position (n : Nat)
  | string (s : ByteArray)
  | other (k : κ)
deriving DecidableEq

def Key.text {κ : Type} (name : String) : Key κ := .string name.toUTF8

namespace Value

variable {ρ : Type}

def text (s : String) : Value ρ := .string s.toUTF8

def typeName : Value ρ → String
  | nil => "nil"
  | bool _ => "boolean"
  | number _ => "number"
  | string _ => "string"
  | table _ => "table"
  | other typeName => typeName

def truthy : Value ρ → Bool
  | nil | bool false => false
  | _ => true

end Value

end Interpreter

/-- An interpreter with states `σ` and functions `φ`. Tables are read and written without metamethods. -/
structure Interpreter (σ ρ κ φ : Type) where
  call : φ → List Int → σ → Except String (List (Interpreter.Value ρ)) × σ
  state : σ → Interpreter.Value ρ
  setState : Interpreter.Value ρ → σ → σ
  length : ρ → σ → Nat
  keys : ρ → σ → List (Interpreter.Key κ)
  get : ρ → Interpreter.Key κ → σ → Interpreter.Value ρ
  put : ρ → Interpreter.Key κ → Interpreter.Value ρ → σ → σ
  create : Nat → σ → ρ × σ

end Interleave
