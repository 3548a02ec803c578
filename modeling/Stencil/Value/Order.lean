import Stencil.Path
import Stencil.Value

/-!
# Order of values

Values of different variants compare by variant.  Integers compare as numbers, strings
byte by byte, arrays by length and then element by element.  A dictionary is equal to
itself only; two of them compare by their addresses.
-/

namespace Stencil

/-- Where a value is stored: the root that holds it and the steps below. -/
structure Place where
  root : Bytes
  /-- The steps from the root on, the last one first. -/
  backwards : List Step := []
  deriving DecidableEq, Repr

namespace Place

def reached (root : Bytes) (steps : List Step) : Place :=
  ⟨root, steps.reverse⟩

def steps (p : Place) : List Step :=
  p.backwards.reverse

def element (p : Place) (i : Nat) : Place :=
  { p with backwards := .index i :: p.backwards }

@[simp]
theorem steps_element (p : Place) (i : Nat) : (p.element i).steps = p.steps ++ [.index i] :=
  List.reverse_cons

def compareSteps : List Step → List Step → Ordering
  | [], [] => .eq
  | [], _ :: _ => .lt
  | _ :: _, [] => .gt
  | .name a :: as, .name b :: bs => (compare a b).then (compareSteps as bs)
  | .index i :: as, .index j :: bs => (compare i j).then (compareSteps as bs)
  | .name _ :: _, .index _ :: _ => .lt
  | .index _ :: _, .name _ :: _ => .gt

/-- Places in the order of their spelling, which serves as an assignment of addresses. -/
instance : Ord Place where
  compare p q := (compare p.root q.root).then (compareSteps p.steps q.steps)

end Place

namespace Value

variable {ι : Type} [Ord ι]

mutual

/-- Compares values that are stored at different places, so that their
elements are as well. -/
def compareStored (address : Place → ι) (p q : Place) : Value → Value → Ordering
  | .none, .none => .eq
  | .int a, .int b => compare a.toInt b.toInt
  | .string a, .string b => compare a b
  | .array as, .array bs =>
    (compare as.length bs.length).then (compareItems address p q 0 as bs)
  | .dict _, .dict _ => compare (address p) (address q)
  | a, b => compare a.kind.rank b.kind.rank

def compareItems (address : Place → ι) (p q : Place) (i : Nat) :
    List Value → List Value → Ordering
  | a :: as, b :: bs =>
    (compareStored address (p.element i) (q.element i) a b).then
      (compareItems address p q (i + 1) as bs)
  | _, _ => .eq

end

/-- Compares the values stored at two places, whose dictionaries have addresses in `ι`.
The same place holds the same value. -/
def compareAt (address : Place → ι) (p q : Place) (a b : Value) : Ordering :=
  if p = q then .eq else compareStored address p q a b

end Value
end Stencil
