import Stencil.Log
import Stencil.Value

/-!
# Display text

The text of a value as a substitution shows it.  A container is shown by its address,
which can be any text, and strings are escaped into printable ASCII.  The text is written
piece by piece, so that it can be cut off at the end of a buffer of any size while its
full length is counted.
-/

namespace Stencil

/-- How the address of a container is spelled. -/
class Addressing where
  text : Value → Bytes

/-!
# Escaping
-/

namespace Escape

def octalDigit (n : Nat) : UInt8 :=
  Byte.zero + (n % 8).toUInt8

def isPlain (b : UInt8) : Bool :=
  b == Byte.tab || b == Byte.newline || (Byte.space ≤ b && b ≤ Byte.tilde)

/-- A backslash is doubled, printable bytes, tabs and newlines stay, and all others become
a backslash with three octal digits. -/
def byte (b : UInt8) : Bytes :=
  if b = Byte.backslash then [Byte.backslash, Byte.backslash]
  else if isPlain b then [b]
  else [Byte.backslash, octalDigit (b.toNat / 64), octalDigit (b.toNat / 8),
    octalDigit b.toNat]

def encode (bytes : Bytes) : Bytes :=
  bytes.flatMap byte

end Escape

/-!
# Pieces
-/

namespace Value

variable [Addressing]

def displayPieces : Value → List Bytes
  | .none => [Bytes.ofText "None"]
  | .int n => [Bytes.decimalInt n.toInt]
  | .string bytes => bytes.map Escape.byte
  | .array items =>
    [Bytes.ofText "array(", Addressing.text (.array items), Bytes.ofText ", ",
      Bytes.decimal items.length, Bytes.ofText ")"]
  | .dict d => [Bytes.ofText "dict(", Addressing.text (.dict d), Bytes.ofText ")"]

def display (v : Value) : Bytes :=
  v.displayPieces.flatten

end Value

/-!
# Buffers of fixed size
-/

/-- A buffer of fixed size: what was stored at its start, what it holds behind that, and
the number of bytes written to it so far, stored or not. -/
structure Window where
  stored : Log UInt8 := .empty
  rest : Bytes
  total : Nat := 0
  deriving DecidableEq, Repr

namespace Window

def buffer (w : Window) : Bytes :=
  w.stored.toList ++ w.rest

def size (w : Window) : Nat :=
  w.stored.size + w.rest.length

/-- Stores the part of `piece` for which there is room, byte over byte,
and counts all of it. -/
def write (w : Window) (piece : Bytes) : Window where
  stored := w.stored.append (piece.zipWith (fun b _ => b) w.rest)
  rest := w.rest.drop piece.length
  total := w.total + piece.length

def writeAll (w : Window) (pieces : List Bytes) : Window :=
  pieces.foldl write w

end Window

/-- The display text of `v` in `buffer`, cut off at its end, and the
length of the whole text. -/
def Value.renderInto [Addressing] (v : Value) (buffer : Bytes) : Window :=
  Window.writeAll { rest := buffer } v.displayPieces

end Stencil
