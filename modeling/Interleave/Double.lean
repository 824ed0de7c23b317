/-! Double-precision numbers, held as their sixty-four bits, so that equality of numbers can be decided and
conversions are exact arithmetic on naturals. -/

namespace Interleave

structure Double where
  bits : UInt64
deriving DecidableEq, Repr, Inhabited

namespace Double

def isNegative (x : Double) : Bool := Nat.pow 2 63 ≤ x.bits.toNat

def exponentField (x : Double) : Nat := x.bits.toNat / Nat.pow 2 52 % Nat.pow 2 11

def fraction (x : Double) : Nat := x.bits.toNat % Nat.pow 2 52

def isFinite (x : Double) : Bool := x.exponentField != 2047

def isNaN (x : Double) : Bool := x.exponentField = 2047 && x.fraction != 0

def magnitude (x : Double) : Nat × Int :=
  if x.exponentField = 0 then (x.fraction, -1074)
  else (Nat.pow 2 52 + x.fraction, (x.exponentField : Int) - 1075)

def pack (negative : Bool) (exponentField fraction : Nat) : Double :=
  ⟨UInt64.ofNat ((if negative then Nat.pow 2 63 else 0) + exponentField * Nat.pow 2 52 + fraction)⟩

def zero : Double := ⟨0⟩

def infinity (negative : Bool) : Double := pack negative 2047 0

def nan : Double := pack false 2047 (Nat.pow 2 51)

/-- The quotient rounded to the nearest natural; a half goes to the even neighbour. -/
def roundDiv (n d : Nat) : Nat :=
  let q := n / d
  let r := n % d
  if 2 * r < d then q
  else if d < 2 * r then q + 1
  else q + q % 2

/-- The number nearest to `m * 2 ^ e`; a half goes to the even neighbour. -/
def ofScaled (negative : Bool) (m : Nat) (e : Int) : Double :=
  if m = 0 then pack negative 0 0
  else
    let shift : Int := max ((m.log2 : Int) - 52) (-1074 - e)
    let q := if shift ≤ 0 then m * Nat.pow 2 (-shift).toNat else roundDiv m (Nat.pow 2 shift.toNat)
    let (q, e) := if q = Nat.pow 2 53 then (Nat.pow 2 52, e + shift + 1) else (q, e + shift)
    if q < Nat.pow 2 52 then pack negative 0 q
    else if 971 < e then infinity negative
    else pack negative (e + 1075).toNat (q - Nat.pow 2 52)

/-- The number nearest to `n / d`. The bit below the quotient records an inexact division. -/
def ofRatio (negative : Bool) (n d : Nat) : Double :=
  let shift := 66 + d.log2 - n.log2
  let scaled := n * Nat.pow 2 shift
  ofScaled negative (2 * (scaled / d) + (if scaled % d = 0 then 0 else 1)) (-(shift : Int) - 1)

def ofDecimal (negative : Bool) (m : Nat) (e : Int) : Double :=
  let top := (Nat.toDigits 10 m).length + e
  if m = 0 ∨ top < -330 then pack negative 0 0
  else if 310 < top then infinity negative
  else if 0 ≤ e then ofScaled negative (m * Nat.pow 10 e.toNat) 0
  else ofRatio negative m (Nat.pow 10 (-e).toNat)

def ofInt (n : Int) : Double := ofScaled (decide (n < 0)) n.natAbs 0

/-- The integer left after dropping the fraction; none for infinities and for numbers that are none. -/
def truncate? (x : Double) : Option Int :=
  if x.isFinite then
    let (m, e) := x.magnitude
    let n : Nat := if 0 ≤ e then m * Nat.pow 2 e.toNat else m / Nat.pow 2 (-e).toNat
    some (if x.isNegative then -(n : Int) else n)
  else none

def wordLimit : Int := 0x8000000000000000

/-- The truncated number as a signed word; what does not fit becomes the least word. -/
def toWord (x : Double) : Int :=
  match x.truncate? with
  | some n => if -wordLimit ≤ n ∧ n < wordLimit then n else -wordLimit
  | none => -wordLimit

def isIntegral (x : Double) : Bool :=
  x.isFinite &&
    let (m, e) := x.magnitude
    decide (0 ≤ e) || m % Nat.pow 2 (-e).toNat == 0

def toInt? (x : Double) : Option Int := if x.isIntegral then x.truncate? else none

def rank (x : Double) : Int :=
  if x.isNegative then -((x.bits.toNat - Nat.pow 2 63 : Nat) : Int) else x.bits.toNat

def lt (x y : Double) : Bool := !x.isNaN && !y.isNaN && x.rank < y.rank

def le (x y : Double) : Bool := !x.isNaN && !y.isNaN && x.rank ≤ y.rank

/-- Numeric equality: the two zeros are equal and what is no number equals nothing. -/
def equals (x y : Double) : Bool := !x.isNaN && !y.isNaN && x.rank = y.rank

def toFloat (x : Double) : Float := Float.ofBits x.bits

def ofFloat (x : Float) : Double := ⟨x.toBits⟩

def neg (x : Double) : Double :=
  if x.isNegative then ⟨UInt64.ofNat (x.bits.toNat - Nat.pow 2 63)⟩
  else ⟨UInt64.ofNat (x.bits.toNat + Nat.pow 2 63)⟩

def abs (x : Double) : Double := if x.isNegative then x.neg else x

def add (x y : Double) : Double := ofFloat (x.toFloat + y.toFloat)

def sub (x y : Double) : Double := ofFloat (x.toFloat - y.toFloat)

def mul (x y : Double) : Double := ofFloat (x.toFloat * y.toFloat)

def div (x y : Double) : Double := ofFloat (x.toFloat / y.toFloat)

def floor (x : Double) : Double := ofFloat x.toFloat.floor

def ceil (x : Double) : Double := ofFloat x.toFloat.ceil

def sqrt (x : Double) : Double := ofFloat x.toFloat.sqrt

def mod (x y : Double) : Double := x.sub ((x.div y).floor.mul y)

end Double

end Interleave
