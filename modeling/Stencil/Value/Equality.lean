import Stencil.Value

/-!
# Structural equality

Dictionaries are equal when they have the same keys with equal values, in whatever order.
-/

namespace Stencil
namespace Value

mutual

def same : Value → Value → Bool
  | .none, .none => true
  | .int a, .int b => a == b
  | .string a, .string b => a == b
  | .array as, .array bs => sameItems as bs
  | .dict ⟨as⟩, .dict b => as.length == b.size && sameEntries as b
  | _, _ => false

def sameItems : List Value → List Value → Bool
  | [], [] => true
  | a :: as, b :: bs => same a b && sameItems as bs
  | _, _ => false

def sameEntries : List (Bytes × Value) → Dict Value → Bool
  | [], _ => true
  | (key, v) :: rest, d =>
    (match d.get? key with
      | some w => same v w
      | .none => false) && sameEntries rest d

end

end Value
end Stencil
