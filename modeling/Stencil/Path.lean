import Stencil.Bytes

/-!
# Paths

A path names a place in a tree of values: the names of dictionary entries joined by dots,
and array indices in brackets, as in `pages[2].title`.
-/

namespace Stencil

/-- The text of a path, which is UTF-8 wherever it comes from text. -/
abbrev Path := Bytes

inductive Step where
  | name (bytes : Bytes)
  | index (i : Nat)
  deriving DecidableEq, Repr

namespace Path

/-- Names are shorter than this many bytes. -/
def nameBound : Nat := 256

/-- Index tokens are shorter than this many bytes. -/
def indexTokenBound : Nat := 32

end Path
end Stencil
