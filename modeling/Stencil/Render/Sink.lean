import Stencil.Bytes
import Stencil.Log

/-!
# Sinks

A sink is offered the chunks of an output one after the other and accepts or refuses each.
Any state machine will do; this module holds a bounded buffer, a stream that takes a
limited number of bytes at a time, and a recorder of chunks.
-/

namespace Stencil

/-- A machine with states `σ` that refuses chunks for reasons `ε`. -/
structure Sink (σ ε : Type) where
  offer : σ → Bytes → σ × Except ε Unit

inductive Refusal where
  | limitReached (limit : Nat)
  | incompleteWrite
  | declined
  deriving DecidableEq, Repr

namespace Refusal

def text : Refusal → String
  | limitReached limit => "output exceeds the " ++ toString limit ++ " byte buffer limit"
  | incompleteWrite => "failed to write whole buffer"
  | declined => "refused"

instance : ToString Refusal := ⟨text⟩

end Refusal

/-!
# Buffers
-/

/-- Collected output, which stays shorter than its limit. -/
structure OutputBuffer where
  collected : Log UInt8 := .empty
  limit : Nat := 67108864
  deriving DecidableEq, Repr

namespace OutputBuffer

def content (buffer : OutputBuffer) : Bytes :=
  buffer.collected.toList

/-- A chunk that would reach the limit is refused and empties the buffer. -/
def offer (buffer : OutputBuffer) (chunk : Bytes) : OutputBuffer × Except Refusal Unit :=
  if chunk.isEmpty then (buffer, .ok ())
  else if buffer.limit ≤ buffer.collected.size + chunk.length then
    ({ buffer with collected := .empty }, .error (.limitReached buffer.limit))
  else ({ buffer with collected := buffer.collected.append chunk }, .ok ())

def sink : Sink OutputBuffer Refusal := ⟨offer⟩

end OutputBuffer

/-!
# Streams
-/

/-- What a stream has taken, the most bytes that it takes at a time, and the most in
all. -/
structure Stream where
  collected : Log UInt8 := .empty
  step : Option Nat := none
  capacity : Option Nat := none
  deriving DecidableEq, Repr

namespace Stream

def taken (s : Stream) : Bytes :=
  s.collected.toList

/-- The bytes that the stream takes of `bytes` at once. -/
def portion (s : Stream) (bytes : Bytes) : Bytes :=
  let stepped := match s.step with
    | some step => bytes.take step
    | none => bytes
  match s.capacity with
  | some capacity => stepped.take (capacity - s.collected.size)
  | none => stepped

/-- Writes until nothing is left or nothing is taken. -/
def writeAll : Nat → Stream → Bytes → Stream × Except Refusal Unit
  | _, s, [] => (s, .ok ())
  | 0, s, _ => (s, .error .incompleteWrite)
  | fuel + 1, s, bytes =>
    match s.portion bytes with
    | [] => (s, .error .incompleteWrite)
    | portion =>
      writeAll fuel { s with collected := s.collected.append portion }
        (bytes.drop portion.length)

/-- Every write takes a byte at least, so that there are no more writes than bytes. -/
def offer (s : Stream) (chunk : Bytes) : Stream × Except Refusal Unit :=
  s.writeAll chunk.length chunk

def sink : Sink Stream Refusal := ⟨offer⟩

end Stream

/-!
# Recorders
-/

/-- The chunks accepted so far, and how many to accept before refusing one. -/
structure Recorder where
  collected : Log Bytes := .empty
  patience : Option Nat := none
  deriving DecidableEq, Repr

namespace Recorder

def accepted (r : Recorder) : List Bytes :=
  r.collected.toList

def offer (r : Recorder) (chunk : Bytes) : Recorder × Except Refusal Unit :=
  if r.patience = some r.collected.size then (r, .error .declined)
  else ({ r with collected := r.collected.append [chunk] }, .ok ())

def sink : Sink Recorder Refusal := ⟨offer⟩

end Recorder
end Stencil
