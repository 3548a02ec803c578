import Stencil.Bytes.Utf8
import Stencil.Number
import Stencil.Value

/-!
# Failures of value operations

Why an operation on a value fails.  One that was handed a value to store hands it back.
-/

namespace Stencil

/-- Arrays hold at most this many elements. -/
def maxArrayLength : Nat := 134217728

inductive ValueError where
  | wrongType (expected found : Kind)
  | arrayTooLarge (index : Nat)
  | duplicateKey (key : Bytes)
  | keyNotFound (key : Bytes)
  | integerOverflow (value addend : Int64)
  | unrepresentable (number : Number)
  deriving DecidableEq, Repr

namespace ValueError

def quoted (key : Bytes) : String :=
  "\"" ++ Utf8.lossyText key ++ "\""

def message : ValueError → String
  | wrongType expected found => "expected " ++ expected.name ++ " value, found " ++ found.name
  | arrayTooLarge index =>
    "array index " ++ toString index ++ " exceeds the maximum array size " ++
      toString maxArrayLength
  | duplicateKey key => "key " ++ quoted key ++ " is already present"
  | keyNotFound key => "key " ++ quoted key ++ " not found"
  | integerOverflow value addend =>
    "integer overflow adding " ++ toString addend.toInt ++ " to " ++ toString value.toInt
  | unrepresentable number => "cannot represent number " ++ number.text

end ValueError

structure Rejected where
  error : ValueError
  value : Value
  deriving DecidableEq, Repr

end Stencil
