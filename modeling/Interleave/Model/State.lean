import Interleave.Datum
import Interleave.Interpreter

/-! The state of a model: the value of the global `state`, captured as a message value and installed from one.
Sequences become lists and tables with string keys become records. -/

namespace Interleave

inductive StateError where
  | tooDeep
  | mixedKeys
  | unsupported (typeName : String)
  | inField (name : String) (cause : StateError)
deriving DecidableEq, Repr

def StateError.message : StateError → String
  | tooDeep => "luamodel: state is nested too deeply or contains a cycle"
  | mixedKeys => "luamodel: state tables must be sequences or have string keys"
  | unsupported typeName => s!"luamodel: unsupported value of type {typeName} in state"
  | inField name cause => s!"field {name}: {cause.message}"

namespace Interpreter

abbrev Captured := Datum × Bool

def captureString (s : ByteArray) : Captured :=
  match String.fromUTF8? s with
  | some t => (.text t, true)
  | none => (.text (Text.ofBytes s), false)

variable {σ ρ κ φ : Type}

def stringKeys? (keys : List (Key κ)) : Option (List ByteArray) := do
  let names ← keys.mapM fun
    | .string k => some k
    | _ => none
  some (names.mergeSort fun j k => decide (j.data.toList ≤ k.data.toList))

variable (L : Interpreter σ ρ κ φ)

/-- Captures a value, with tables nested at most `room` deep. -/
def capture (s : σ) : Nat → Value ρ → Except StateError Captured
  | _, .nil => .ok (.null, true)
  | _, .bool b => .ok (.bool b, true)
  | _, .number x => .ok (.number x, true)
  | _, .string b => .ok (captureString b)
  | 0, .table _ => .error .tooDeep
  | room + 1, .table r => do
    let keys := L.keys r s
    let length := L.length r s
    if 0 < keys.length ∧ keys.length = length then
      let items ← (List.range length).mapM fun (i : Nat) => capture s room (L.get r (.position (i + 1)) s)
      return (.list (items.map (·.1)), items.all (·.2))
    else
      match stringKeys? keys with
      | none => .error .mixedKeys
      | some sorted =>
        let fields ← sorted.mapM fun k =>
          match capture s room (L.get r (.string k) s) with
          | .ok (d, plain) =>
            let (name, valid) := (Text.ofBytes k, (String.fromUTF8? k).isSome)
            .ok ((name, d), plain && valid)
          | .error e => .error (.inField (Text.ofBytes k) e)
        return (Datum.ofFields (fields.map (·.1)), fields.all (·.2))
  | _, .other typeName => .error (.unsupported typeName)

/-- The deepest nesting of tables in a captured state. -/
def maxNesting : Nat := 64

mutual

def push : Datum → σ → Value ρ × σ
  | .null, s => (.nil, s)
  | .bool b, s => (.bool b, s)
  | .number x, s => (.number x, s)
  | .text t, s => (.text t, s)
  | .list items, s =>
    let (r, s) := L.create items.length s
    (.table r, pushItems r 1 items s)
  | .record fields, s =>
    let (r, s) := L.create 0 s
    (.table r, pushFields r fields s)

def pushItems (r : ρ) (n : Nat) : List Datum → σ → σ
  | [], s => s
  | x :: xs, s =>
    let (v, s) := push x s
    pushItems r (n + 1) xs (L.put r (.position n) v s)

def pushFields (r : ρ) : List (String × Datum) → σ → σ
  | [], s => s
  | (k, x) :: xs, s =>
    let (v, s) := push x s
    pushFields r xs (L.put r (.text k) v s)

end

def captureState (s : σ) : Except StateError Captured := L.capture s maxNesting (L.state s)

def installState (d : Datum) (s : σ) : σ :=
  let (v, s) := L.push d s
  L.setState v s

end Interpreter

end Interleave
