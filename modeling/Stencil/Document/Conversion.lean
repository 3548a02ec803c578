import Stencil.Document
import Stencil.Value.Error

/-!
# Documents as values

Truth values become the integers one and zero.  A number has a counterpart only if
it is an integer of 64 signed bits; the first one without, in document order,
makes the conversion fail.
-/

namespace Stencil
namespace Document

def numberToValue (n : Number) : Except ValueError Value :=
  match n.toInt64? with
  | some i => .ok (.int i)
  | none => .error (.unrepresentable n)

mutual

def toValue : Document → Except ValueError Value
  | .null => .ok .none
  | .bool b => .ok (.int (if b then 1 else 0))
  | .number n => numberToValue n
  | .string bytes => .ok (.string bytes)
  | .array items => (toItems 0 items).map .array
  | .object ⟨members⟩ => (toDict .empty members).map .dict

def toItems (index : Nat) : List Document → Except ValueError (List Value)
  | [] => .ok []
  | item :: rest => do
    let v ← toValue item
    if maxArrayLength < index + 1 then .error (.arrayTooLarge index)
    else
      let vs ← toItems (index + 1) rest
      .ok (v :: vs)

def toDict (d : Dict Value) : List (Bytes × Document) → Except ValueError (Dict Value)
  | [] => .ok d
  | (key, member) :: rest => do
    let v ← toValue member
    toDict (d.replace key v) rest

end

end Document
end Stencil
