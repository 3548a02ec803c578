import Stencil.Number.Shortest

/-!
# Numbers of data documents

A document's number is an integer or a floating point number.  Integers have 64 bits,
signed or unsigned; those of 64 signed bits have a counterpart among the values.
-/

namespace Stencil

inductive Number where
  | integer (value : Int)
  | double (value : Binary64)
  deriving DecidableEq, Repr

namespace Number

def text : Number → String
  | .integer value => toString value
  | .double value => value.text

/-- Integers of 64 signed bits are below this bound, and not below its negative. -/
def signedBound : Nat := 0x8000000000000000

/-- Integers of 64 unsigned bits are below this bound. -/
def unsignedBound : Nat := 0x10000000000000000

def fitsInt64 (value : Int) : Bool :=
  -(signedBound : Int) ≤ value && value < signedBound

def fits (value : Int) : Bool :=
  -(signedBound : Int) ≤ value && value < unsignedBound

def toInt64? : Number → Option Int64
  | .integer value => if fitsInt64 value then some (Int64.ofInt value) else none
  | .double _ => none

end Number
end Stencil
