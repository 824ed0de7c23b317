/-! Reading signed integers of a fixed width, in base ten or with a base chosen by the digits, and reading
truth values. -/

namespace Interleave.Text

inductive NumberError where
  | malformed
  | outOfRange
deriving DecidableEq, Repr

def NumberError.message : NumberError → String
  | .malformed => "invalid syntax"
  | .outOfRange => "value out of range"

def digitValue (c : Char) : Option Nat :=
  if '0' ≤ c ∧ c ≤ '9' then some (c.toNat - '0'.toNat)
  else if 'a' ≤ c ∧ c ≤ 'z' then some (c.toNat - 'a'.toNat + 10)
  else if 'A' ≤ c ∧ c ≤ 'Z' then some (c.toNat - 'A'.toNat + 10)
  else none

/-- Reads digits from left to right and stops at the first fault. Underscores are skipped when `loose`. -/
def readDigits (base limit : Nat) (loose : Bool) : List Char → Nat → Except NumberError Nat
  | [], n => .ok n
  | c :: cs, n =>
    if loose && c == '_' then readDigits base limit loose cs n
    else match digitValue c with
      | none => .error .malformed
      | some d =>
        if base ≤ d then .error .malformed
        else if limit < n * base + d then .error .outOfRange
        else readDigits base limit loose cs (n * base + d)

def signed (bits : Nat) (negative : Bool) (n : Nat) : Except NumberError Int :=
  if negative then
    if Nat.pow 2 (bits - 1) < n then .error .outOfRange else .ok (-n)
  else if Nat.pow 2 (bits - 1) ≤ n then .error .outOfRange else .ok n

def splitSign : List Char → Bool × List Char
  | '-' :: cs => (true, cs)
  | '+' :: cs => (false, cs)
  | cs => (false, cs)

def readInteger (bits : Nat) (cs : List Char) : Except NumberError Int :=
  let (negative, digits) := splitSign cs
  if digits.isEmpty then .error .malformed
  else do signed bits negative (← readDigits 10 (Nat.pow 2 bits - 1) false digits 0)

def splitBase : List Char → Nat × List Char
  | '0' :: x :: d :: ds =>
    match x.toLower with
    | 'b' => (2, d :: ds)
    | 'o' => (8, d :: ds)
    | 'x' => (16, d :: ds)
    | _ => (8, x :: d :: ds)
  | '0' :: ds => (8, ds)
  | ds => (10, ds)

inductive LastSeen where
  | start | digit | underscore | other
deriving DecidableEq

/-- Each underscore stands between two digits; a base announcement counts as a digit. -/
def underscoresSeparate (hex : Bool) : List Char → LastSeen → Bool
  | [], last => last != .underscore
  | c :: cs, last =>
    if c.isDigit || (hex && 'a' ≤ c.toLower && c.toLower ≤ 'f') then
      underscoresSeparate hex cs .digit
    else if c == '_' then last == .digit && underscoresSeparate hex cs .underscore
    else last != .underscore && underscoresSeparate hex cs .other

def wellSeparated : List Char → Bool
  | '0' :: x :: ds =>
    match x.toLower with
    | 'b' | 'o' => underscoresSeparate false ds .digit
    | 'x' => underscoresSeparate true ds .digit
    | _ => underscoresSeparate false ('0' :: x :: ds) .start
  | ds => underscoresSeparate false ds .start

def readAnyBase (bits : Nat) (cs : List Char) : Except NumberError Int :=
  let (negative, unsigned) := splitSign cs
  if unsigned.isEmpty then .error .malformed
  else do
    let (base, digits) := splitBase unsigned
    let n ← readDigits base (Nat.pow 2 64 - 1) true digits 0
    if unsigned.contains '_' && !wellSeparated unsigned then .error .malformed
    else signed bits negative n

def readBool (s : String) : Option Bool :=
  if ["1", "t", "T", "TRUE", "true", "True"].contains s then some true
  else if ["0", "f", "F", "FALSE", "false", "False"].contains s then some false
  else none

end Interleave.Text
