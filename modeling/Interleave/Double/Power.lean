import Interleave.Double

/-! Powers of doubles. A whole exponent is taken by repeated squaring of the significand, with the binary
exponent kept apart, so that no intermediate result overflows. -/

namespace Interleave.Double

def one : Double := ofInt 1

def half : Double := ofScaled false 1 (-1)

def split (x : Double) : Double × Int :=
  let (m, e) := x.magnitude
  let width := m.log2 + 1
  (ofScaled x.isNegative m (-(width : Int)), e + width)

def scale (x : Double) (e : Int) : Double :=
  if x.isFinite then
    let (m, e') := x.magnitude
    if m = 0 then x
    else if 5000 < e then infinity x.isNegative
    else if e < -5000 then pack x.isNegative 0 0
    else ofScaled x.isNegative m (e + e')
  else x

/-- Multiplies `acc * 2 ^ accExp` by the power `(x * 2 ^ xExp) ^ n`. -/
def powLoop : Nat → Nat → Double → Int → Double → Int → Double × Int
  | 0, _, acc, accExp, _, _ => (acc, accExp)
  | fuel + 1, n, acc, accExp, x, xExp =>
    if n = 0 then (acc, accExp)
    else if xExp < -4096 ∨ 4096 < xExp then (acc, accExp + xExp)
    else
      let (acc, accExp) := if n % 2 = 1 then (acc.mul x, accExp + xExp) else (acc, accExp)
      let square := x.mul x
      let (square, squareExp) :=
        if square.lt half then (square.add square, 2 * xExp - 1) else (square, 2 * xExp)
      powLoop fuel (n / 2) acc accExp square squareExp

def isOdd (x : Double) : Bool := x.toInt?.any (· % 2 = 1)

def powFinite (x y : Double) : Double :=
  let whole := y.abs.floor
  let part := y.abs.sub whole
  if part.rank ≠ 0 ∧ x.lt zero then nan
  else if (ofScaled false 1 63).le whole then
    if x.equals one.neg then one
    else if x.abs.lt one = zero.lt y then zero
    else infinity false
  else
    let up := half.lt part
    let part := if up then part.sub one else part
    let n := (whole.truncate?.getD 0).toNat + (if up then 1 else 0)
    let start := if part.rank = 0 then one else ofFloat (part.toFloat * x.toFloat.log).exp
    let (f, e) := x.split
    let (acc, accExp) := powLoop 64 n start 0 f e
    if y.lt zero then scale (one.div acc) (-accExp) else scale acc accExp

def pow (x y : Double) : Double :=
  if y.rank = 0 ∨ x.equals one then one
  else if y.equals one then x
  else if x.isNaN ∨ y.isNaN then nan
  else if x.rank = 0 then
    if y.lt zero then infinity (x.isNegative && isOdd y)
    else if x.isNegative && isOdd y then x else zero
  else if !y.isFinite then
    if x.equals one.neg then one
    else if x.abs.lt one = zero.lt y then zero
    else infinity false
  else if !x.isFinite then
    if y.lt zero then pack (x.isNegative && isOdd y) 0 0
    else infinity (x.isNegative && isOdd y)
  else if y.equals half then x.sqrt
  else if y.equals half.neg then one.div x.sqrt
  else powFinite x y

/-- A whole power of ten as the product of two correctly rounded powers. -/
def powerOfTen (n : Int) : Double :=
  if 308 < n then infinity false
  else if n < -323 then zero
  else if 0 ≤ n then
    (ofDecimal false 1 (n / 32 * 32)).mul (ofDecimal false 1 (n % 32))
  else
    (ofDecimal false 1 (-((-n) / 32 * 32))).div (ofDecimal false 1 ((-n) % 32))

end Interleave.Double
