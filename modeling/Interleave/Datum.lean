import Interleave.Assoc
import Interleave.Double

/-! Message values: what snapshots hold and what travels between a driver and its client, with the size of
their encoding. Fields of a record have ascending distinct names. -/

namespace Interleave

inductive Datum where
  | null
  | bool (value : Bool)
  | number (value : Double)
  | text (value : String)
  | list (items : List Datum)
  | record (fields : List (String × Datum))
deriving Inhabited

namespace Datum

mutual

def same : Datum → Datum → Bool
  | null, null => true
  | bool a, bool b => a == b
  | number x, number y => decide (x = y)
  | text s, text t => decide (s = t)
  | list xs, list ys => sameItems xs ys
  | record xs, record ys => sameFields xs ys
  | _, _ => false

def sameItems : List Datum → List Datum → Bool
  | [], [] => true
  | x :: xs, y :: ys => same x y && sameItems xs ys
  | _, _ => false

def sameFields : List (String × Datum) → List (String × Datum) → Bool
  | [], [] => true
  | (j, x) :: xs, (k, y) :: ys => decide (j = k) && same x y && sameFields xs ys
  | _, _ => false

end

mutual

theorem same_iff (x y : Datum) : same x y = true ↔ x = y := by
  cases x <;> cases y <;> simp [same, sameItems_iff, sameFields_iff]

theorem sameItems_iff (xs ys : List Datum) : sameItems xs ys = true ↔ xs = ys := by
  cases xs with
  | nil => cases ys <;> simp [sameItems]
  | cons x xs => cases ys with
    | nil => simp [sameItems]
    | cons y ys => simp [sameItems, same_iff x y, sameItems_iff xs ys]

theorem sameFields_iff (xs ys : List (String × Datum)) : sameFields xs ys = true ↔ xs = ys := by
  cases xs with
  | nil => cases ys <;> simp [sameFields]
  | cons x xs => cases ys with
    | nil => simp [sameFields]
    | cons y ys =>
      obtain ⟨j, x⟩ := x
      obtain ⟨k, y⟩ := y
      simp [sameFields, same_iff x y, sameFields_iff xs ys, and_assoc]

end

instance : DecidableEq Datum := fun x y => decidable_of_iff _ (same_iff x y)

/-- A record from fields in any order; the last of two fields of one name wins. -/
def ofFields (fields : List (String × Datum)) : Datum := record (Assoc.ofList fields)

def int (n : Int) : Datum := number (Double.ofInt n)

def field? : Datum → String → Option Datum
  | record fields, name => Assoc.get? name fields
  | _, _ => none

def lengthBytes (n : Nat) : Nat := if n < 128 then 1 else 1 + lengthBytes (n / 128)

def framed (n : Nat) : Nat := 1 + lengthBytes n + n

mutual

def size : Datum → Nat
  | null => 2
  | bool _ => 2
  | number _ => 9
  | text s => framed s.utf8ByteSize
  | list items => framed (itemsSize items)
  | record fields => framed (fieldsSize fields)

def itemsSize : List Datum → Nat
  | [] => 0
  | x :: xs => framed (size x) + itemsSize xs

def fieldsSize : List (String × Datum) → Nat
  | [] => 0
  | (k, x) :: xs => framed (framed k.utf8ByteSize + framed (size x)) + fieldsSize xs

end

end Datum

abbrev Message := List (String × Datum)

namespace Message

def size (m : Message) : Nat := Datum.fieldsSize m

end Message

end Interleave
