import Interleave.Script.Value

/-! Tables: a row of items at the positions from one, which may hold `nil`, and fields in the order in which
their keys were first used. A cleared field keeps its place, so that a traversal may clear what it visits. -/

namespace Interleave.Script

structure Table where
  items : Array Value
  fields : List (Value × Value)
  metatable : Option Nat
deriving DecidableEq, Inhabited

namespace Table

def empty : Table := ⟨#[], [], none⟩

def slot? (t : Table) : Value → Option Nat
  | .number x => do
    let n ← x.toInt?
    if 1 ≤ n ∧ n ≤ t.items.size then some (n.toNat - 1) else none
  | _ => none

/-- Both zeros are the same key. -/
def canonicalKey : Value → Value
  | .number x => .number (if x.rank = 0 then Double.zero else x)
  | k => k

def lookup (k : Value) : List (Value × Value) → Value
  | [] => .nil
  | (k', v) :: rest => if k' = k then v else lookup k rest

def get (t : Table) (key : Value) : Value :=
  match t.slot? key with
  | some i => t.items.getD i .nil
  | none => lookup (canonicalKey key) t.fields

def getInt (t : Table) (n : Int) : Value :=
  if 1 ≤ n ∧ n ≤ t.items.size then t.items.getD (n.toNat - 1) .nil
  else lookup (canonicalKey (.int n)) t.fields

def isPosition (n : Nat) : Bool := 1 ≤ n && decide ((Double.ofInt n).toInt? = some (n : Int))

def item (t : Table) (n : Nat) : Value := if isPosition n then t.get (.int n) else .nil

/-- Changes a field in place or adds it at the end; a key that is absent is not added for `nil`. -/
def store (k v : Value) : List (Value × Value) → List (Value × Value)
  | [] => if v = .nil then [] else [(k, v)]
  | (k', v') :: rest => if k' = k then (k, v) :: rest else (k', v') :: store k v rest

def discard (k : Value) (fields : List (Value × Value)) : List (Value × Value) :=
  fields.filter fun (k', _) => k' ≠ k

/-- Moves the fields that continue the items to the items. -/
def absorb : Nat → Table → Table
  | 0, t => t
  | fuel + 1, t =>
    match t.item (t.items.size + 1) with
    | .nil => t
    | v => absorb fuel
        { t with items := t.items.push v, fields := discard (.int (t.items.size + 1)) t.fields }

def set (t : Table) (key v : Value) : Table :=
  match t.slot? key with
  | some i => { t with items := t.items.setIfInBounds i v }
  | none =>
    let k := canonicalKey key
    if k = .int (t.items.size + 1) ∧ isPosition (t.items.size + 1) ∧ v ≠ .nil then
      absorb t.fields.length { t with items := t.items.push v, fields := discard k t.fields }
    else { t with fields := store k v t.fields }

def setInt (t : Table) (n : Int) (v : Value) : Table := t.set (.int n) v

def fillRow (t : Table) (row : List Value) : Table :=
  { t with
    items := row.toArray ++ t.items.extract row.length t.items.size
    fields := (List.range row.length).foldl (fun fields (i : Nat) => discard (.int (i + 1)) fields) t.fields }

/-- A position `i` with an item such that the next position up to `j` has none, found by halving. -/
def borderIn (t : Table) : Nat → Nat → Nat → Nat
  | 0, i, _ => i
  | fuel + 1, i, j =>
    if j - i ≤ 1 then i
    else
      let m := (i + j) / 2
      if t.item m = .nil then borderIn t fuel i m else borderIn t fuel m j

def borderAfter (t : Table) : Nat → Nat → Nat
  | 0, n => n
  | fuel + 1, n => if t.item (n + 1) = .nil then n else borderAfter t fuel (n + 1)

/-- The length of a table: a position with a value whose successor has none, or zero. -/
def length (t : Table) : Nat :=
  let n := t.items.size
  if 0 < n ∧ t.item n = .nil then borderIn t n 0 n else borderAfter t t.fields.length n

def presentItems (items : Array Value) : List (Value × Value) :=
  (items.toList.zipIdx 1).filterMap fun (v, i) => if v = .nil then none else some (.int i, v)

def entries (t : Table) : List (Value × Value) :=
  presentItems t.items ++ t.fields.filter fun (_, v) => v ≠ .nil

/-- What follows a key in a traversal; the outer none tells that the key is unknown. -/
def after? (t : Table) (key : Value) : Option (Option (Value × Value)) :=
  match key with
  | .nil => some t.entries.head?
  | _ =>
    match t.slot? key with
    | some i =>
      let rest := (presentItems t.items).filter fun (k, _) =>
        match k with
        | .number x => x.toInt?.any fun n => (i : Int) + 1 < n
        | _ => false
      some (rest ++ t.fields.filter fun (_, v) => v ≠ .nil).head?
    | none =>
      match t.fields.dropWhile fun (k, _) => k ≠ canonicalKey key with
      | [] => none
      | _ :: rest => some (rest.find? fun (_, v) => v ≠ .nil)

end Table

end Interleave.Script
