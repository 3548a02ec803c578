import Stencil.Value.Access

/-!
# Iteration

Arrays and dictionaries are iterated alike, as a list of keys and values.
-/

namespace Stencil

inductive Key where
  | index (i : Nat)
  | name (bytes : Bytes)
  deriving DecidableEq, Repr

def Key.toValue : Key → Value
  | .index i => .int (Int64.ofNat i)
  | .name bytes => .string bytes

namespace Value

def indexed (items : List Value) : List (Key × Value) :=
  items.zipIdx.map fun e => (.index e.2, e.1)

def named (d : Dict Value) : List (Key × Value) :=
  d.entries.map fun e => (.name e.1, e.2)

/-- The entries of a container, in index or insertion order. -/
def entries : Value → Except ValueError (List (Key × Value))
  | .array items => .ok (indexed items)
  | .dict d => .ok (named d)
  | v => .error (wrongType .array v)

end Value

/-- The entries that an iteration has still to yield. -/
structure Iteration where
  remaining : List (Key × Value)

namespace Iteration

def next? (i : Iteration) : Option ((Key × Value) × Iteration) :=
  match i.remaining with
  | [] => none
  | e :: rest => some (e, ⟨rest⟩)

def length (i : Iteration) : Nat :=
  i.remaining.length

def sizeHint (i : Iteration) : Nat × Option Nat :=
  (i.length, some i.length)

def drain (i : Iteration) : List (Key × Value) × Iteration :=
  (i.remaining, ⟨[]⟩)

end Iteration

def Value.iterate (v : Value) : Except ValueError Iteration :=
  v.entries.map Iteration.mk

end Stencil
