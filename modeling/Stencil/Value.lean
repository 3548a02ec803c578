import Stencil.Dict

/-!
# Values

The data that templates are rendered with: nothing, a 64-bit integer, a byte string, a
sequence, or an ordered dictionary.
-/

namespace Stencil

inductive Value where
  | none
  | int (n : Int64)
  | string (bytes : Bytes)
  | array (items : List Value)
  | dict (entries : Dict Value)
  deriving Repr

/-- The variants, in the order in which values of different variants compare. -/
inductive Kind where
  | none
  | integer
  | string
  | array
  | dictionary
  deriving DecidableEq, Repr

namespace Kind

def name : Kind → String
  | none => "none"
  | integer => "integer"
  | string => "string"
  | array => "array"
  | dictionary => "dictionary"

def rank : Kind → Nat
  | none => 0
  | integer => 1
  | string => 2
  | array => 3
  | dictionary => 4

end Kind

namespace Value

instance : Inhabited Value := ⟨.none⟩

def kind : Value → Kind
  | .none => .none
  | .int _ => .integer
  | .string _ => .string
  | .array _ => .array
  | .dict _ => .dictionary

def isNone : Value → Bool
  | .none => true
  | _ => false

/-- Zero and whatever is empty count as false in a condition. -/
def isTruthy : Value → Bool
  | .none => false
  | .int n => n != 0
  | .string bytes => !bytes.isEmpty
  | .array items => !items.isEmpty
  | .dict entries => !entries.isEmpty

/-- The number of bytes, elements or entries. -/
def length : Value → Nat
  | .string bytes => bytes.length
  | .array items => items.length
  | .dict entries => entries.size
  | _ => 0

/-!
# Identity

Two values are identical when they are built alike, down to the order of every dictionary.
-/

mutual

def decideEq : (a b : Value) → Decidable (a = b)
  | .none, .none => isTrue rfl
  | .int a, .int b => decidable_of_iff (a = b) (by simp)
  | .string a, .string b => decidable_of_iff (a = b) (by simp)
  | .array a, .array b =>
    match decideEqItems a b with
    | isTrue h => isTrue (by rw [h])
    | isFalse h => isFalse (by simpa using h)
  | .dict ⟨a⟩, .dict ⟨b⟩ =>
    match decideEqEntries a b with
    | isTrue h => isTrue (by rw [h])
    | isFalse h => isFalse (by simpa using h)
  | .none, .int _ | .none, .string _ | .none, .array _ | .none, .dict _
  | .int _, .none | .int _, .string _ | .int _, .array _ | .int _, .dict _
  | .string _, .none | .string _, .int _ | .string _, .array _ | .string _, .dict _
  | .array _, .none | .array _, .int _ | .array _, .string _ | .array _, .dict _
  | .dict _, .none | .dict _, .int _ | .dict _, .string _ | .dict _, .array _ =>
    isFalse (by simp)

def decideEqItems : (as bs : List Value) → Decidable (as = bs)
  | [], [] => isTrue rfl
  | a :: as, b :: bs =>
    match decideEq a b, decideEqItems as bs with
    | isTrue h, isTrue hs => isTrue (by rw [h, hs])
    | isFalse h, _ => isFalse (by simp [h])
    | _, isFalse hs => isFalse (by simp [hs])
  | [], _ :: _ | _ :: _, [] => isFalse (by simp)

def decideEqEntries : (as bs : List (Bytes × Value)) → Decidable (as = bs)
  | [], [] => isTrue rfl
  | (k, a) :: as, (l, b) :: bs =>
    match decideEq a b, decideEqEntries as bs with
    | isTrue h, isTrue hs =>
      if hk : k = l then isTrue (by rw [h, hs, hk]) else isFalse (by simp [hk])
    | isFalse h, _ => isFalse (by simp [h])
    | _, isFalse hs => isFalse (by simp [hs])
  | [], _ :: _ | _ :: _, [] => isFalse (by simp)

end

instance : DecidableEq Value := decideEq

end Value
end Stencil
