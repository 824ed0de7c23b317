import Interleave.Text.Bytes
import Interleave.Text.Printable

/-! Quoted texts: a text between double quotes in which the quote, the backslash, every character that is not
printable and every byte that encodes no character are written as escapes. -/

namespace Interleave.Text

def hexDigit (n : Nat) : Char :=
  if n < 10 then Char.ofNat ('0'.toNat + n) else Char.ofNat ('a'.toNat + (n - 10))

def hexDigits : Nat → Nat → List Char
  | 0, _ => []
  | width + 1, n => hexDigits width (n / 16) ++ [hexDigit (n % 16)]

def letterEscape (c : Char) : Option Char :=
  match c.toNat with
  | 7 => some 'a'
  | 8 => some 'b'
  | 9 => some 't'
  | 10 => some 'n'
  | 11 => some 'v'
  | 12 => some 'f'
  | 13 => some 'r'
  | _ => none

def quoteChar (c : Char) : List Char :=
  if c = '"' ∨ c = '\\' then ['\\', c]
  else if isPrintable c then [c]
  else match letterEscape c with
    | some l => ['\\', l]
    | none =>
      if c.toNat < 0x80 then '\\' :: 'x' :: hexDigits 2 c.toNat
      else if c.toNat < 0x10000 then '\\' :: 'u' :: hexDigits 4 c.toNat
      else '\\' :: 'U' :: hexDigits 8 c.toNat

def quoteByte (b : UInt8) : List Char := '\\' :: 'x' :: hexDigits 2 b.toNat

def quoteBytes (bytes : ByteArray) : String :=
  String.ofList
    ('"' :: (decodeBytes quoteChar (fun _ b => [quoteByte b]) 0 false bytes.data.toList).flatten ++ ['"'])

def quote (s : String) : String := quoteBytes s.toUTF8

end Interleave.Text
