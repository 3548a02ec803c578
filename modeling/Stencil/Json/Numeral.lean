import Stencil.Bytes
import Stencil.Number

/-!
# JSON numerals

The parts of a numeral and the number that it denotes.  A numeral of digits alone is
an integer if that is within range.  Any other is read as a significand of at most 64
bits and a power of ten, and scaled in floating point: by one multiplication or
division, or in steps of `1e308`.
-/

namespace Stencil
namespace Json

structure Numeral where
  negative : Bool
  whole : Bytes
  fraction : Option Bytes
  /-- Whether the exponent is negative, and its digits. -/
  exponent : Option (Bool × Bytes)
  deriving DecidableEq, Repr

namespace Numeral

/-!
# Grammar
-/

def minus : UInt8 := 0x2D

def plus : UInt8 := 0x2B

def isExponentMark (b : UInt8) : Bool :=
  b == 0x65 || b == 0x45

def digits (bytes : Bytes) : Bytes × Bytes :=
  (bytes.takeWhile Byte.isDigit, bytes.dropWhile Byte.isDigit)

/-- A zero, or digits that start with another one. -/
def readWhole (bytes : Bytes) : Option (Bytes × Bytes) :=
  match digits bytes with
  | ([], _) => none
  | (first :: more, rest) =>
    if first = Byte.zero ∧ !more.isEmpty then none else some (first :: more, rest)

def readFraction : Bytes → Option (Option Bytes × Bytes)
  | [] => some (none, [])
  | b :: rest =>
    if b = Byte.dot then
      match digits rest with
      | ([], _) => none
      | (fraction, rest) => some (some fraction, rest)
    else some (none, b :: rest)

def readSign : Bytes → Bool × Bytes
  | [] => (false, [])
  | b :: rest => if b = minus then (true, rest) else if b = plus then (false, rest)
    else (false, b :: rest)

def readExponent : Bytes → Option (Option (Bool × Bytes) × Bytes)
  | [] => some (none, [])
  | b :: rest =>
    if isExponentMark b then
      let (negative, rest) := readSign rest
      match digits rest with
      | ([], _) => none
      | (exponent, rest) => some (some (negative, exponent), rest)
    else some (none, b :: rest)

/-- The numeral at the start of a text, and what follows it. -/
def read (bytes : Bytes) : Option (Numeral × Bytes) := do
  let negative := bytes.head? == some minus
  let (whole, rest) ← readWhole (if negative then bytes.drop 1 else bytes)
  let (fraction, rest) ← readFraction rest
  let (exponent, rest) ← readExponent rest
  some (⟨negative, whole, fraction, exponent⟩, rest)

/-!
# Numbers
-/

/-- A significand with further digits as long as it stays in bounds, how many of them it
took, and how many it left. -/
def extend (significand : Nat) : Bytes → Nat × Nat × Nat
  | [] => (significand, 0, 0)
  | b :: rest =>
    let next := 10 * significand + (b.toNat - Byte.zero.toNat)
    if Number.unsignedBound ≤ next then (significand, 0, rest.length + 1)
    else
      let (result, took, left) := extend next rest
      (result, took + 1, left)

/-- An integer, unless it is a negative zero or below 64 signed bits. -/
def integerNumber (negative : Bool) (significand : Nat) : Option Number :=
  if !negative then some (.integer significand)
  else if 0 < significand ∧ significand ≤ Number.signedBound then
    some (.integer (-significand))
  else (Binary64.ofNat significand).map fun x => .double (x.withSign true)

/-- Multiplies by a power of ten within the range of one step. -/
def scaleOnce (x : Binary64) (power : Int) : Option Binary64 := do
  let factor ← Binary64.ofDecimal false 1 power.natAbs
  if 0 ≤ power then x.mul factor else x.div factor

def scale : Nat → Binary64 → Int → Option Binary64
  | 0, _, _ => none
  | fuel + 1, x, power =>
    if power.natAbs ≤ 308 then scaleOnce x power
    else if x.isZero then some x
    else if 0 ≤ power then none
    else do
      let x ← scaleOnce x (-308)
      scale fuel x (power + 308)

/-- Exponents are cut off here, far beyond what any significand can make up for. -/
def exponentBound : Nat := 0x100000000000

def exponentMagnitude (digits : Bytes) : Nat :=
  digits.foldl (fun n b => min (10 * n + (b.toNat - Byte.zero.toNat)) exponentBound) 0

def exponentValue : Option (Bool × Bytes) → Int
  | none => 0
  | some (negative, digits) =>
    if negative then -(exponentMagnitude digits : Int) else exponentMagnitude digits

/-- The number that a numeral denotes, unless it is beyond the range of floating point. -/
def number (n : Numeral) : Option Number :=
  let (significand, _, skipped) := extend 0 n.whole
  if skipped = 0 ∧ n.fraction = none ∧ n.exponent = none then
    integerNumber n.negative significand
  else do
    let (significand, taken, _) := extend significand (n.fraction.getD [])
    let power := (skipped : Int) - taken + exponentValue n.exponent
    let x ← Binary64.ofNat significand
    let x ← scale (power.natAbs / 308 + 2) x power
    some (.double (x.withSign n.negative))

end Numeral
end Json
end Stencil
