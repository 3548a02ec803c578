import Stencil.Bytes.Utf8
import Stencil.Path

/-!
# Failures of paths

What can be wrong with a path, in itself or against the values it is
followed through, and where.
-/

namespace Stencil

inductive Access where
  | reading
  | writing
  deriving DecidableEq, Repr

inductive PathFault where
  | emptyPath
  | emptyName
  | nameTooLong (excerpt : Bytes)
  | notFound (name : Bytes)
  | notADict (access : Access) (name : Bytes)
  | notAnArray (access : Access) (name : Bytes)
  | indexTooLong
  | indexEmpty
  | indexNotTerminated
  | indexNotANumber
  | indexOutOfBounds
  | strayByte
  | noRoom
  deriving DecidableEq, Repr

inductive PathFault.Class where
  | emptyPath
  | emptyName
  | nameTooLong
  | notFound
  | notADict
  | notAnArray
  | invalidIndex
  | indexOutOfBounds
  | parseError
  | allocation
  deriving DecidableEq, Repr

namespace PathFault

def toClass : PathFault → Class
  | emptyPath => .emptyPath
  | emptyName => .emptyName
  | nameTooLong _ => .nameTooLong
  | notFound _ => .notFound
  | notADict _ _ => .notADict
  | notAnArray _ _ => .notAnArray
  | indexTooLong => .invalidIndex
  | indexEmpty => .invalidIndex
  | indexNotTerminated => .invalidIndex
  | indexNotANumber => .invalidIndex
  | indexOutOfBounds => .indexOutOfBounds
  | strayByte => .parseError
  | noRoom => .allocation

def quoted (name : Bytes) : String :=
  "\"" ++ Utf8.lossyText name ++ "\""

def subject : Access → Bytes → String
  | .reading, name => "Name " ++ quoted name
  | .writing, name => quoted name

def text : PathFault → String
  | emptyPath => "Empty location specified"
  | emptyName => "Empty name"
  | nameTooLong excerpt => "Name \"" ++ Utf8.lossyText excerpt ++ "...\" too long"
  | notFound name => "Name " ++ quoted name ++ " not found"
  | notADict access name => subject access name ++ " is not a dictionary"
  | notAnArray access name => subject access name ++ " is not an array"
  | indexTooLong => "Array index is too long"
  | indexEmpty => "Array index is empty"
  | indexNotTerminated => "Array index is not terminated"
  | indexNotANumber => "Array index is not a number"
  | indexOutOfBounds => "Array index is out of bounds"
  | strayByte => "Parse error"
  | noRoom => "Allocation of array failed"

end PathFault

/-- A fault, the offset in the path at which it was noticed, and the path up to there. -/
structure PathError where
  fault : PathFault
  offset : Nat
  consumed : Bytes
  deriving DecidableEq, Repr

namespace PathError

/-- A fault at an offset inside a character reports the whole path as consumed. -/
def noticed (path : Path) (offset : Nat) (fault : PathFault) : PathError :=
  ⟨fault, offset, if Utf8.isBoundary path offset then path.take offset else path⟩

def message (e : PathError) : String :=
  if 0 < e.offset then e.fault.text ++ " at \"" ++ Utf8.lossyText e.consumed ++ "\""
  else e.fault.text

end PathError
end Stencil
