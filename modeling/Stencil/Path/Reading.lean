import Stencil.Path.Error
import Stencil.Value.Error

/-!
# Reading a path

A path is read once, from left to right, into its segments and the way in which it ends.
The offsets kept with them are where a failure at that segment is reported.  What follows
a path looks at an ending that is a fault only after all segments before it.
-/

namespace Stencil
namespace Path

/-- A name starts at its offset; an index starts behind the opening bracket and stops
behind the closing one. -/
inductive Segment where
  | name (start : Nat) (bytes : Bytes)
  | index (start stop : Nat) (i : Nat)
  deriving DecidableEq, Repr

def Segment.step : Segment → Step
  | .name _ bytes => .name bytes
  | .index _ _ i => .index i

inductive Ending where
  | complete
  /-- A byte other than a dot or an opening bracket where a separator is due. -/
  | stray (offset : Nat)
  | badName (start : Nat) (fault : PathFault)
  | badIndex (start offset : Nat) (fault : PathFault)
  deriving DecidableEq, Repr

structure Reading where
  segments : List Segment
  ending : Ending
  deriving DecidableEq, Repr

namespace Reading

def endingIn (ending : Ending) : Reading :=
  ⟨[], ending⟩

def prepend (segment : Segment) (r : Reading) : Reading :=
  { r with segments := segment :: r.segments }

def steps (r : Reading) : List Step :=
  r.segments.map Segment.step

end Reading

/-!
# Single segments
-/

def nameFault? (name : Bytes) : Option PathFault :=
  if name.isEmpty then some .emptyName
  else if nameBound ≤ name.length then some (.nameTooLong (name.take 8))
  else none

/-- What is wrong with an index token, whether or not a bracket closes it. -/
def tokenFault? (token : Bytes) : Option PathFault :=
  if indexTokenBound ≤ token.length then some .indexTooLong
  else if token.isEmpty then some .indexEmpty
  else none

def tokenIndex (token : Bytes) : Except PathFault Nat :=
  if !token.all Byte.isDigit then .error .indexNotANumber
  else if Bytes.digitsValue token < maxArrayLength then .ok (Bytes.digitsValue token)
  else .error .indexOutOfBounds

/-- The name from `start`, where `bytes` begins, to `stop`, and then `rest` unless the
name is at fault. -/
def closeName (bytes : Bytes) (start stop : Nat) (rest : Reading) : Reading :=
  let name := bytes.take (stop - start)
  match nameFault? name with
  | some fault => .endingIn (.badName start fault)
  | none => rest.prepend (.name start name)

/-- The index from `start`, where `bytes` begins, to the closing bracket at `stop`, and
then `rest` unless the index is at fault. -/
def closeIndex (bytes : Bytes) (start stop : Nat) (rest : Reading) : Reading :=
  let token := bytes.take (stop - start)
  match tokenFault? token with
  | some fault => .endingIn (.badIndex start start fault)
  | none =>
    match tokenIndex token with
    | .ok i => rest.prepend (.index start (stop + 1) i)
    | .error fault => .endingIn (.badIndex start (stop + 1) fault)

/-- The index from `start`, where `token` begins, that the end of the path
at `stop` leaves open. -/
def openIndex (token : Bytes) (start stop : Nat) : Reading :=
  match tokenFault? token with
  | some fault => .endingIn (.badIndex start start fault)
  | none => .endingIn (.badIndex start stop .indexNotTerminated)

/-!
# Whole paths
-/

/-- What the reader is inside of, with the offset at which it began and what was
left of the path there. -/
inductive Expecting where
  | name (start : Nat) (bytes : Bytes)
  | index (start : Nat) (bytes : Bytes)
  | separator

/-- Reads on from `offset`, where `rest` is what is left of the path. -/
def readFrom : Expecting → Nat → Bytes → Reading
  | .name start bytes, offset, [] => closeName bytes start offset (.endingIn .complete)
  | .name start bytes, offset, b :: rest =>
    if b = Byte.dot then
      closeName bytes start offset (readFrom (.name (offset + 1) rest) (offset + 1) rest)
    else if b = Byte.openBracket then
      closeName bytes start offset (readFrom (.index (offset + 1) rest) (offset + 1) rest)
    else
      readFrom (.name start bytes) (offset + 1) rest
  | .index start bytes, offset, [] => openIndex bytes start offset
  | .index start bytes, offset, b :: rest =>
    if b = Byte.closeBracket then
      closeIndex bytes start offset (readFrom .separator (offset + 1) rest)
    else
      readFrom (.index start bytes) (offset + 1) rest
  | .separator, _, [] => .endingIn .complete
  | .separator, offset, b :: rest =>
    if b = Byte.dot then readFrom (.name (offset + 1) rest) (offset + 1) rest
    else if b = Byte.openBracket then readFrom (.index (offset + 1) rest) (offset + 1) rest
    else .endingIn (.stray (offset + 1))

def read (path : Path) : Reading :=
  if path.isEmpty then .endingIn (.badName 0 .emptyPath) else readFrom (.name 0 path) 0 path

def steps? (path : Path) : Option (List Step) :=
  if (read path).ending = .complete then some (read path).steps else none

end Path
end Stencil
