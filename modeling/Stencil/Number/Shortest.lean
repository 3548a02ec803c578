import Stencil.Number.Binary64

/-!
# Shortest decimals

The shortest decimal that reads back as a given floating point number, and its text:
positional from `1e-5` up to `1e16`, in scientific notation elsewhere.
-/

namespace Stencil
namespace Binary64

/-!
# Digits

The decimals that read back as a number form an interval, with its ends exactly when the
significand is even.  The least count of digits whose grid meets the interval decides.
-/

def readsBack (x : Binary64) (n d : Nat) : Bool :=
  let m := x.significand
  let lowerGap := if 2 * m = significandBound ∧ leastExponent < x.exponent then 1 else 2
  let low := scaleDown (4 * m - lowerGap) 4 (-x.exponent)
  let high := scaleDown (4 * m + 2) 4 (-x.exponent)
  if m % 2 = 0 then low.1 * d ≤ n * low.2 && n * high.2 ≤ high.1 * d
  else low.1 * d < n * low.2 && n * high.2 < high.1 * d

def decimalRatio (digits : Nat) (power : Int) : Nat × Nat :=
  if 0 ≤ power then (digits * Nat.pow 10 power.toNat, 1)
  else (digits, Nat.pow 10 (-power).toNat)

/-- The multiple of `10 ^ power` that reads back as `x`, of two the nearer, an exact tie
going to the even one. -/
def gridHit (x : Binary64) (power : Int) : Option Nat :=
  let value := x.toRatio
  let unit := decimalRatio 1 power
  let n := value.1 * unit.2
  let d := value.2 * unit.1
  let below := n / d
  let reads (digits : Nat) : Bool :=
    let r := decimalRatio digits power
    readsBack x r.1 r.2
  match reads below, reads (below + 1) with
  | true, true => some (divideToEven n d)
  | true, false => some below
  | false, true => some (below + 1)
  | false, false => none

/-- The greatest `k` with `10 ^ k ≤ n / d`, searched for from `start` downwards. -/
def floorLog10From (n d : Nat) : Nat → Int → Int
  | 0, start => start
  | fuel + 1, start =>
    let r := decimalRatio 1 start
    if r.1 * d ≤ n * r.2 then start else floorLog10From n d fuel (start - 1)

def floorLog10 (x : Binary64) : Int :=
  floorLog10From x.toRatio.1 x.toRatio.2 700 309

/-- A decimal `0.digits * 10 ^ point` with digits that neither start nor end in zero. -/
structure Decimal where
  digits : List Char
  point : Int
  deriving DecidableEq, Repr

def dropTrailingZeros (digits : List Char) : List Char :=
  (digits.reverse.dropWhile (· == '0')).reverse

def shortestFrom (x : Binary64) (top : Int) : Nat → Nat → Decimal
  | 0, _ => ⟨['0'], 1⟩
  | fuel + 1, count =>
    let power := top - count + 1
    match gridHit x power with
    | some hit =>
      let digits := Nat.toDigits 10 hit
      ⟨dropTrailingZeros digits, power + digits.length⟩
    | none => shortestFrom x top fuel (count + 1)

def shortest (x : Binary64) : Decimal :=
  shortestFrom x (floorLog10 x) 17 1

/-!
# Text
-/

def zeros (n : Nat) : List Char :=
  List.replicate n '0'

/-- Positional notation, with at least one digit on either side of the point. -/
def Decimal.positional (r : Decimal) : List Char :=
  if r.point ≤ 0 then
    ['0', '.'] ++ zeros (-r.point).toNat ++ r.digits
  else if r.digits.length ≤ r.point.toNat then
    r.digits ++ zeros (r.point.toNat - r.digits.length) ++ ['.', '0']
  else
    r.digits.take r.point.toNat ++ ['.'] ++ r.digits.drop r.point.toNat

/-- One digit before the point, a point only before further digits, and a signed
exponent. -/
def Decimal.scientific (r : Decimal) : List Char :=
  let exponent := r.point - 1
  let fraction := if r.digits.length ≤ 1 then [] else '.' :: r.digits.drop 1
  let sign := if exponent < 0 then '-' else '+'
  r.digits.take 1 ++ fraction ++ ['e', sign] ++ Nat.toDigits 10 exponent.natAbs

def magnitudeText (x : Binary64) : List Char :=
  if x.isZero then ['0', '.', '0']
  else
    let r := x.shortest
    if -4 ≤ r.point ∧ r.point ≤ 16 then r.positional else r.scientific

def text (x : Binary64) : String :=
  String.ofList (if x.negative then '-' :: x.magnitudeText else x.magnitudeText)

end Binary64
end Stencil
