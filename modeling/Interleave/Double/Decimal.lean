import Interleave.Double

/-! Decimal text of doubles: fixed places, scientific, and the shorter of the two. Digits are those of the
exact value, rounded once; a half goes to the even neighbour. -/

namespace Interleave.Double

def ratio (x : Double) : Nat × Nat :=
  let (m, e) := x.magnitude
  if 0 ≤ e then (m * Nat.pow 2 e.toNat, 1) else (m, Nat.pow 2 (-e).toNat)

def scaledDigits (x : Double) (places : Int) : Nat :=
  let (n, d) := x.ratio
  if 0 ≤ places then roundDiv (n * Nat.pow 10 places.toNat) d
  else roundDiv n (d * Nat.pow 10 (-places).toNat)

def decimalExponent (x : Double) : Int :=
  let (n, d) := x.ratio
  let k : Int := ((Nat.toDigits 10 n).length : Int) - (Nat.toDigits 10 d).length
  let below := if 0 ≤ k then n < d * Nat.pow 10 k.toNat else n * Nat.pow 10 (-k).toNat < d
  if below then k - 1 else k

structure Digits where
  digits : List Char
  exponent : Int

def significant (x : Double) (count : Nat) : Digits :=
  if x.magnitude.1 = 0 then ⟨List.replicate count '0', 0⟩
  else
    let k := x.decimalExponent
    let q := x.scaledDigits ((count : Int) - 1 - k)
    if q = Nat.pow 10 count then ⟨Nat.toDigits 10 (Nat.pow 10 (count - 1)), k + 1⟩
    else ⟨Nat.toDigits 10 q, k⟩

/-- The first decimal of `count`, `count + 1`, … digits that reads back as the number. Both neighbours on
each grid are tried, the nearer first. -/
def shortestFrom (x : Double) : Nat → Nat → Digits
  | 0, count => x.significant count
  | more + 1, count =>
    let k := x.decimalExponent
    let places : Int := (count : Int) - 1 - k
    let near := x.scaledDigits places
    let (n, d) := x.ratio
    let floor := if 0 ≤ places then n * Nat.pow 10 places.toNat / d
      else n / (d * Nat.pow 10 (-places).toNat)
    let other := if near = floor then floor + 1 else floor
    let readsBack (q : Nat) : Bool := ofDecimal false q (-places) = x.abs
    let shown (q : Nat) : Digits :=
      if q = Nat.pow 10 count then ⟨Nat.toDigits 10 (Nat.pow 10 (count - 1)), k + 1⟩
      else ⟨Nat.toDigits 10 q, k⟩
    if readsBack near then shown near
    else if readsBack other then shown other
    else shortestFrom x more (count + 1)

def shortest (x : Double) : Digits :=
  if x.magnitude.1 = 0 then ⟨['0'], 0⟩ else x.shortestFrom 16 1

def dropTrailingZeros (cs : List Char) : List Char := (cs.reverse.dropWhile (· == '0')).reverse

def withPoint (whole fractional : List Char) : List Char :=
  if fractional.isEmpty then whole else whole ++ '.' :: fractional

def fixed (x : Double) (places : Nat) : List Char :=
  let digits := Nat.toDigits 10 (x.scaledDigits places)
  let padded := List.replicate (places + 1 - digits.length) '0' ++ digits
  withPoint (padded.take (padded.length - places)) (padded.drop (padded.length - places))

def exponentText (mark : Char) (e : Int) : List Char :=
  let digits := Nat.toDigits 10 e.natAbs
  mark :: (if e < 0 then '-' else '+') :: (if digits.length < 2 then '0' :: digits else digits)

def scientificDigits (mark : Char) (d : Digits) : List Char :=
  withPoint (d.digits.take 1) (d.digits.drop 1) ++ exponentText mark d.exponent

def positional (d : Digits) : List Char :=
  if d.exponent < 0 then
    withPoint ['0'] (List.replicate (-d.exponent - 1).toNat '0' ++ d.digits)
  else
    let whole := d.exponent.toNat + 1
    withPoint (d.digits.take whole ++ List.replicate (whole - d.digits.length) '0') (d.digits.drop whole)

def scientific (mark : Char) (x : Double) (places : Nat) : List Char :=
  scientificDigits mark (x.significant (places + 1))

/-- Trailing zeros are dropped, and an exponent is written if it is below minus four or at least `limit`. -/
def generalDigits (mark : Char) (limit : Int) (d : Digits) : List Char :=
  let digits := dropTrailingZeros d.digits
  let d : Digits := ⟨if digits.isEmpty then ['0'] else digits, d.exponent⟩
  if d.exponent < -4 ∨ limit ≤ d.exponent then scientificDigits mark d else positional d

def general (mark : Char) (x : Double) : Option Nat → List Char
  | none => generalDigits mark 6 x.shortest
  | some precision =>
    let precision := max precision 1
    generalDigits mark precision (x.significant precision)

def text (x : Double) : String :=
  if x.isNaN then "NaN"
  else if !x.isFinite then if x.isNegative then "-Inf" else "+Inf"
  else String.ofList ((if x.isNegative then ['-'] else []) ++ general 'e' x (some 14))

end Interleave.Double
