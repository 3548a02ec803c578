import Stencil.Bytes

/-!
# UTF-8

A decoder that reads one byte at a time.  Every maximal subsequence that is no character
yields one invalid mark, so strict decoding asks for the absence of marks and lossy
decoding replaces each of them by one U+FFFD.  An ASCII byte always ends what came before
it, which is why a text may be cut beside ASCII bytes and decoded piece by piece.
-/

namespace Stencil
namespace Utf8

/-- An unfinished character: the continuation bytes it still needs, the bounds on the next
one, and the bits collected so far. -/
structure Pending where
  owed : Nat
  low : UInt8
  high : UInt8
  code : Nat
  deriving DecidableEq, Repr

/-- What a byte at the start of a character completes, and what it leaves unfinished. -/
def lead (b : UInt8) : List (Option Char) × Option Pending :=
  if b ≤ 0x7F then ([some (Char.ofNat b.toNat)], none)
  else if 0xC2 ≤ b ∧ b ≤ 0xDF then ([], some ⟨1, 0x80, 0xBF, b.toNat - 0xC0⟩)
  else if b = 0xE0 then ([], some ⟨2, 0xA0, 0xBF, 0⟩)
  else if b = 0xED then ([], some ⟨2, 0x80, 0x9F, 0xD⟩)
  else if 0xE1 ≤ b ∧ b ≤ 0xEF then ([], some ⟨2, 0x80, 0xBF, b.toNat - 0xE0⟩)
  else if b = 0xF0 then ([], some ⟨3, 0x90, 0xBF, 0⟩)
  else if b = 0xF4 then ([], some ⟨3, 0x80, 0x8F, 4⟩)
  else if 0xF1 ≤ b ∧ b ≤ 0xF3 then ([], some ⟨3, 0x80, 0xBF, b.toNat - 0xF0⟩)
  else ([none], none)

/-- One byte.  A byte that cannot continue an unfinished character marks that character
invalid and starts the next one. -/
def step : Option Pending → UInt8 → List (Option Char) × Option Pending
  | none, b => lead b
  | some p, b =>
    if p.low ≤ b ∧ b ≤ p.high then
      let code := 64 * p.code + (b.toNat - 0x80)
      if p.owed ≤ 1 then ([some (Char.ofNat code)], none)
      else ([], some ⟨p.owed - 1, 0x80, 0xBF, code⟩)
    else
      (none :: (lead b).1, (lead b).2)

def decodeFrom : Option Pending → Bytes → List (Option Char)
  | none, [] => []
  | some _, [] => [none]
  | p, b :: rest => (step p b).1 ++ decodeFrom (step p b).2 rest

def decode (bytes : Bytes) : List (Option Char) :=
  decodeFrom none bytes

def encode (chars : List Char) : Bytes :=
  chars.flatMap String.utf8EncodeChar

def isValid (bytes : Bytes) : Bool :=
  (decode bytes).all Option.isSome

def replacement : Char := '\uFFFD'

def lossy (bytes : Bytes) : List Char :=
  (decode bytes).map (·.getD replacement)

def lossyText (bytes : Bytes) : String :=
  String.ofList (lossy bytes)

/-- A position is a character boundary when no continuation byte stands at it. -/
def isBoundary (bytes : Bytes) (position : Nat) : Bool :=
  match bytes[position]? with
  | some b => !(0x80 ≤ b && b ≤ 0xBF)
  | none => true

end Utf8
end Stencil
