/-! Byte strings that usually, but not always, hold encoded text. -/

namespace Interleave.Text

instance bytesDecidableEq : DecidableEq ByteArray := ByteArray.instDecidableEq

/-- The character at the start of a byte string, with the number of bytes it takes. Only the shortest
encoding of a character counts. -/
def charAt? : List UInt8 → Option (Char × Nat)
  | a :: b :: c :: d :: _ =>
    let (a, b, c, d) := (a.toNat, b.toNat, c.toNat, d.toNat)
    if a < 0x80 then some (Char.ofNat a, 1)
    else if 0xc2 ≤ a ∧ a < 0xe0 ∧ b / 64 = 2 then some (Char.ofNat (a % 32 * 64 + b % 64), 2)
    else if 0xe0 ≤ a ∧ a < 0xf0 ∧ b / 64 = 2 ∧ c / 64 = 2 then
      let n := a % 16 * 4096 + b % 64 * 64 + c % 64
      if 0x800 ≤ n ∧ n / 2048 ≠ 27 then some (Char.ofNat n, 3) else none
    else if 0xf0 ≤ a ∧ a < 0xf5 ∧ b / 64 = 2 ∧ c / 64 = 2 ∧ d / 64 = 2 then
      let n := a % 8 * 262144 + b % 64 * 4096 + c % 64 * 64 + d % 64
      if 0x10000 ≤ n ∧ n < 0x110000 then some (Char.ofNat n, 4) else none
    else none
  | [] => none
  | a :: _ => if a < 0x80 then some (Char.ofNat a.toNat, 1) else none

/-- Reads a byte string: a character goes through `char`, a byte that encodes nothing through `stray`, which is told
whether the byte before it encoded nothing either. The first `skip` bytes belong to a character already read. -/
def decodeBytes {α : Type} (char : Char → α) (stray : Bool → UInt8 → List α) : Nat → Bool → List UInt8 → List α
  | _, _, [] => []
  | skip + 1, _, _ :: rest => decodeBytes char stray skip false rest
  | 0, broken, b :: rest =>
    match charAt? (b :: (rest.take 3 ++ [0, 0, 0])) with
    | some (c, width) => char c :: decodeBytes char stray (width - 1) false rest
    | none => stray broken b ++ decodeBytes char stray 0 true rest

def concat (parts : List ByteArray) : ByteArray := parts.foldl (· ++ ·) .empty

def ofBytes (bytes : ByteArray) : String :=
  match String.fromUTF8? bytes with
  | some s => s
  | none => String.ofList
      (decodeBytes id (fun broken _ => if broken then [] else ['�']) 0 false bytes.data.toList)

def charsOfBytes (bytes : ByteArray) : List Char :=
  match String.fromUTF8? bytes with
  | some s => s.toList
  | none => decodeBytes id (fun _ _ => ['�']) 0 false bytes.data.toList

end Interleave.Text
