import Interleave.Double.Decimal
import Interleave.Script.Token
import Interleave.Text.Blank

/-! The values of a running script and the conversions between strings and numbers. Tables and functions
are references into a store. -/

namespace Interleave.Script

inductive Builtin where
  | assert | error | getmetatable | ipairs | ipairsNext | next | pairs | pcall | print | rawequal | rawget
  | rawlen | rawset | select | setmetatable | tonumber | tostring | type
  | mathAbs | mathCeil | mathFloor | mathMax | mathMin | mathSqrt
  | stringByte | stringChar | stringFormat | stringLen | stringLower | stringRep | stringReverse | stringSub
  | stringUpper
  | tableConcat | tableInsert | tablePack | tableRemove | tableSort | tableUnpack
  | actor | step | invariant
deriving DecidableEq, Repr

inductive Value where
  | nil
  | bool (b : Bool)
  | number (x : Double)
  | string (s : ByteArray)
  | table (id : Nat)
  | closure (id : Nat)
  | builtin (b : Builtin)
deriving DecidableEq, Inhabited

namespace Value

def text (s : String) : Value := string s.toUTF8

def int (n : Int) : Value := number (Double.ofInt n)

def typeName : Value → String
  | nil => "nil"
  | bool _ => "boolean"
  | number _ => "number"
  | string _ => "string"
  | table _ => "table"
  | closure _ | builtin _ => "function"

def truthy : Value → Bool
  | nil | bool false => false
  | _ => true

def isFunction : Value → Bool
  | closure _ | builtin _ => true
  | _ => false

def rawEquals : Value → Value → Bool
  | number x, number y => x.equals y
  | v, w => decide (v = w)

def readNumber? (s : ByteArray) : Option Double := do
  let cs := Text.trimChars (Text.charsOfBytes s)
  if cs.isEmpty || cs.any fun c => Text.isBlank c || c.toNat = 0 then none
  let tokens ← Token.ofBytes? (String.ofList cs).toUTF8 1
  let value ← match tokens.map Token.lexeme with
    | [.number x, .stop] | [.mark "+", .number x, .stop] => some x
    | [.mark "-", .number x, .stop] => some x.neg
    | _ => none
  if value.isFinite then some value else none

def toNumber? : Value → Option Double
  | number x => some x
  | string s => readNumber? s
  | _ => none

def toInteger? (v : Value) : Option Int := v.toNumber?.map Double.toWord

def toBytes? : Value → Option ByteArray
  | string s => some s
  | number x => some x.text.toUTF8
  | _ => none

end Value

end Interleave.Script
