import Stencil.Value.Error

/-!
# Operations on single values

Views of a value as one of its variants, integer addition, and the operations on sequences
and dictionaries that can refuse.  An operation that changes its receiver returns the
receiver and how it ended, whether it failed or not.
-/

namespace Stencil
namespace Value

def wrongType (expected : Kind) (found : Value) : ValueError :=
  .wrongType expected found.kind

def asInt : Value → Except ValueError Int64
  | .int n => .ok n
  | v => .error (wrongType .integer v)

def asBytes : Value → Except ValueError Bytes
  | .string bytes => .ok bytes
  | v => .error (wrongType .string v)

def asItems : Value → Except ValueError (List Value)
  | .array items => .ok items
  | v => .error (wrongType .array v)

def asDict : Value → Except ValueError (Dict Value)
  | .dict entries => .ok entries
  | v => .error (wrongType .dictionary v)

/-- Adds to an integer when the exact sum fits into 64 signed bits.  Returns
the value as it is then. -/
def addInt (v : Value) (addend : Int64) : Value × Except ValueError Unit :=
  match v with
  | .int n =>
    if Number.fitsInt64 (n.toInt + addend.toInt) then (.int (n + addend), .ok ())
    else (.int n, .error (.integerOverflow n addend))
  | v => (v, .error (wrongType .integer v))

end Value

/-!
# Sequences
-/

namespace Items

/-- The largest number of elements that can be asked for. -/
def maxCount : Nat := 18446744073709551615

/-- Fails when the array would get too long by `additional` more elements.  A sum above
the largest number that can be asked for counts as that number. -/
def grow (items : List Value) (additional : Nat) : Except ValueError Unit :=
  let wanted := min (items.length + additional) maxCount
  if maxArrayLength < wanted then .error (.arrayTooLarge (wanted - 1)) else .ok ()

def append (items : List Value) (v : Value) : List Value × Except Rejected Unit :=
  match grow items 1 with
  | .ok () => (items ++ [v], .ok ())
  | .error e => (items, .error ⟨e, v⟩)

def prepend (items : List Value) (v : Value) : List Value × Except Rejected Unit :=
  match grow items 1 with
  | .ok () => (v :: items, .ok ())
  | .error e => (items, .error ⟨e, v⟩)

/-- Makes sure that there is an element at `index`, with `none` in the
new places up to there. -/
def slot (items : List Value) (index : Nat) : List Value × Except ValueError Unit :=
  if maxArrayLength ≤ index then (items, .error (.arrayTooLarge index))
  else if items.length ≤ index then
    let missing := index + 1 - items.length
    match grow items missing with
    | .ok () => (items ++ List.replicate missing .none, .ok ())
    | .error e => (items, .error e)
  else (items, .ok ())

/-- Stores at `index`, where there is an element from then on. -/
def set (items : List Value) (index : Nat) (v : Value) : List Value × Except Rejected Unit :=
  match slot items index with
  | (filled, .ok ()) => (filled.set index v, .ok ())
  | (left, .error e) => (left, .error ⟨e, v⟩)

def pop (items : List Value) : Option (Value × List Value) :=
  items.getLast?.map (·, items.dropLast)

def pull : List Value → Option (Value × List Value)
  | [] => none
  | v :: rest => some (v, rest)

end Items

/-!
# Dictionaries
-/

namespace Dict

def insert (d : Dict Value) (key : Bytes) (v : Value) : Dict Value × Except Rejected Unit :=
  if d.contains key then (d, .error ⟨.duplicateKey key, v⟩)
  else (⟨d.entries ++ [(key, v)]⟩, .ok ())

/-- Removes the entry of `key`, and fails when there was none. -/
def delete (d : Dict Value) (key : Bytes) : Dict Value × Except ValueError Unit :=
  match d.get? key with
  | some _ => (d.remove key, .ok ())
  | none => (d.remove key, .error (.keyNotFound key))

end Dict
end Stencil
