import Stencil.Bytes

/-!
# Ordered dictionaries

A dictionary lists its entries in the order in which they are iterated.  The operations
differ in where they leave an entry: `replace` moves it to the end, `update` and `ensure`
keep its place.  Every operation keeps the keys distinct.
-/

namespace Stencil

structure Dict (α : Type) where
  entries : List (Bytes × α) := []
  deriving DecidableEq, Repr

namespace Dict

variable {α : Type}

def empty : Dict α := {}

def keys (d : Dict α) : List Bytes :=
  d.entries.map Prod.fst

def size (d : Dict α) : Nat :=
  d.entries.length

def isEmpty (d : Dict α) : Bool :=
  d.entries.isEmpty

def get? (d : Dict α) (key : Bytes) : Option α :=
  d.entries.lookup key

def contains (d : Dict α) (key : Bytes) : Bool :=
  (d.get? key).isSome

def Distinct (d : Dict α) : Prop :=
  d.keys.Nodup

/-!
# Operations
-/

def remove (d : Dict α) (key : Bytes) : Dict α :=
  ⟨d.entries.filter (·.1 != key)⟩

/-- With `value` under `key` as the last entry. -/
def replace (d : Dict α) (key : Bytes) (value : α) : Dict α :=
  ⟨(d.remove key).entries ++ [(key, value)]⟩

/-- With `value` in the place of the entry of `key`; unchanged when there is none. -/
def update (d : Dict α) (key : Bytes) (value : α) : Dict α :=
  ⟨d.entries.map fun e => if e.1 = key then (key, value) else e⟩

/-- With `value` as the last entry under `key`, unless `key` is present. -/
def ensure (d : Dict α) (key : Bytes) (value : α) : Dict α :=
  if d.contains key then d else ⟨d.entries ++ [(key, value)]⟩

/-- With `value` under `key`, in the place of an earlier entry or else last. -/
def put (d : Dict α) (key : Bytes) (value : α) : Dict α :=
  (d.ensure key value).update key value

/-- Entry by entry, each replacing an earlier one of its key. -/
def ofList (entries : List (Bytes × α)) : Dict α :=
  entries.foldl (fun d e => d.replace e.1 e.2) empty

end Dict
end Stencil
