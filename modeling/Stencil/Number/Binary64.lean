/-!
# Binary floating point

The finite numbers of the 64-bit binary format as exact dyadic numbers.  Arithmetic is
done on ratios of natural numbers and rounded once, to the nearest number of the format, a
tie going to the even significand.
-/

namespace Stencil

/-- The number `± significand * 2 ^ exponent`; zero keeps its sign. -/
structure Binary64 where
  negative : Bool
  significand : Nat
  exponent : Int
  deriving DecidableEq, Repr

namespace Binary64

def leastExponent : Int := -1074

def greatestExponent : Int := 971

def significandBound : Nat := 0x20000000000000

def zero (negative : Bool) : Binary64 :=
  ⟨negative, 0, leastExponent⟩

def isZero (x : Binary64) : Bool :=
  x.significand == 0

/-- The ratio `n / d` as a numerator and a denominator scaled by `2 ^ (-e)`. -/
def scaleDown (n d : Nat) (e : Int) : Nat × Nat :=
  if 0 ≤ e then (n, d * Nat.pow 2 e.toNat) else (n * Nat.pow 2 (-e).toNat, d)

/-- The natural number nearest to `n / d`, a tie going to the even one. -/
def divideToEven (n d : Nat) : Nat :=
  let q := n / d
  let r := n % d
  if 2 * r < d then q
  else if d < 2 * r then q + 1
  else if q % 2 = 0 then q
  else q + 1

/-- The greatest `k` with `2 ^ k ≤ n / d`, for positive `n` and `d`. -/
def floorLog2 (n d : Nat) : Int :=
  let k : Int := (n.log2 : Int) - d.log2
  let scaled := scaleDown n d k
  if scaled.1 < scaled.2 then k - 1 else k

/-- The number of the format nearest to `n / d`, when it is within range. -/
def ofRatio (negative : Bool) (n d : Nat) : Option Binary64 :=
  if n = 0 then some (zero negative)
  else
    let e := max leastExponent (floorLog2 n d - 52)
    let scaled := scaleDown n d e
    let m := divideToEven scaled.1 scaled.2
    let x : Binary64 :=
      if m < significandBound then ⟨negative, m, e⟩ else ⟨negative, m / 2, e + 1⟩
    if greatestExponent < x.exponent then none else some x

def toRatio (x : Binary64) : Nat × Nat :=
  if 0 ≤ x.exponent then (x.significand * Nat.pow 2 x.exponent.toNat, 1)
  else (x.significand, Nat.pow 2 (-x.exponent).toNat)

def ofNat (n : Nat) : Option Binary64 :=
  ofRatio false n 1

def mul (x y : Binary64) : Option Binary64 :=
  ofRatio (x.negative != y.negative) (x.toRatio.1 * y.toRatio.1) (x.toRatio.2 * y.toRatio.2)

def div (x y : Binary64) : Option Binary64 :=
  ofRatio (x.negative != y.negative) (x.toRatio.1 * y.toRatio.2) (x.toRatio.2 * y.toRatio.1)

def withSign (x : Binary64) (negative : Bool) : Binary64 :=
  { x with negative }

/-- The number nearest to `± digits * 10 ^ exponent`, when it is within range. -/
def ofDecimal (negative : Bool) (digits : Nat) (exponent : Int) : Option Binary64 :=
  if 0 ≤ exponent then ofRatio negative (digits * Nat.pow 10 exponent.toNat) 1
  else ofRatio negative digits (Nat.pow 10 (-exponent).toNat)

end Binary64
end Stencil
