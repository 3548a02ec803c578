import Stencil.Path

/-!
# Templates

A compiled template is a tree of nodes.  Each node records the span of source bytes that
it comes from; a block records the span of the directive that opens it.
-/

namespace Stencil

/-- The line on which a stretch of source starts, counted from one, the offset of its
first byte, and the offset behind its last one. -/
structure Span where
  line : Nat
  start : Nat
  stop : Nat
  deriving DecidableEq, Repr

inductive Node where
  | text (bytes : Bytes) (span : Span)
  | subst (path : Path) (span : Span)
  | cond (condition : Path) (thenBranch elseBranch : List Node) (span : Span)
  | loop (var : Bytes) (iterable : Path) (body : List Node) (span : Span)
  deriving Repr

namespace Node

def span : Node → Span
  | .text _ span => span
  | .subst _ span => span
  | .cond _ _ _ span => span
  | .loop _ _ _ span => span

mutual

def count : Node → Nat
  | .text _ _ => 1
  | .subst _ _ => 1
  | .cond _ thenBranch elseBranch _ => 1 + countAll thenBranch + countAll elseBranch
  | .loop _ _ body _ => 1 + countAll body

def countAll : List Node → Nat
  | [] => 0
  | node :: rest => count node + countAll rest

end

/-- The list of nodes that a node stands in. -/
inductive Branch where
  | root
  | thenBranch
  | elseBranch
  | body
  deriving DecidableEq, Repr

mutual

/-- All nodes of a tree in document order, each with its depth and branch. -/
def outline (depth : Nat) (branch : Branch) : Node → List (Nat × Branch × Node)
  | .text bytes span => [(depth, branch, .text bytes span)]
  | .subst path span => [(depth, branch, .subst path span)]
  | .cond condition thenBranch elseBranch span =>
    (depth, branch, .cond condition thenBranch elseBranch span) ::
      (outlineAll (depth + 1) .thenBranch thenBranch ++
        outlineAll (depth + 1) .elseBranch elseBranch)
  | .loop var iterable body span =>
    (depth, branch, .loop var iterable body span) :: outlineAll (depth + 1) .body body

def outlineAll (depth : Nat) (branch : Branch) : List Node → List (Nat × Branch × Node)
  | [] => []
  | node :: rest => outline depth branch node ++ outlineAll depth branch rest

end

end Node

structure Template where
  nodes : List Node
  deriving Repr

namespace Template

def count (t : Template) : Nat :=
  Node.countAll t.nodes

def outline (t : Template) : List (Nat × Node.Branch × Node) :=
  Node.outlineAll 0 .root t.nodes

end Template
end Stencil
