import Stencil.Log
import Stencil.Template.Directive
import Stencil.Template.Piece

/-!
# Compiling

The pieces of a source become nodes one after the other.  Blocks that are still open wait
on a stack, innermost first, until the directive that closes them.
-/

namespace Stencil

/-- A block without its closing directive; `elseBranch` is there once
`else` has been read. -/
inductive OpenBlock where
  | cond (condition : Path) (thenBranch : Log Node)
    (elseBranch : Option (Log Node)) (span : Span)
  | loop (var : Bytes) (iterable : Path) (body : Log Node) (span : Span)

namespace OpenBlock

def kind : OpenBlock → BlockKind
  | .cond .. => .cond
  | .loop .. => .loop

def span : OpenBlock → Span
  | .cond _ _ _ span => span
  | .loop _ _ _ span => span

def add (node : Node) : OpenBlock → OpenBlock
  | .cond condition thenBranch (some elseBranch) span =>
    .cond condition thenBranch (some (elseBranch.append [node])) span
  | .cond condition thenBranch none span =>
    .cond condition (thenBranch.append [node]) none span
  | .loop var iterable body span => .loop var iterable (body.append [node]) span

def close : OpenBlock → Node
  | .cond condition thenBranch elseBranch span =>
    .cond condition thenBranch.toList (elseBranch.getD .empty).toList span
  | .loop var iterable body span => .loop var iterable body.toList span

end OpenBlock

/-- The nodes outside all open blocks, and the open blocks from the innermost outwards. -/
structure Builder where
  root : Log Node := .empty
  stack : List OpenBlock := []

namespace Builder

def add (b : Builder) (node : Node) : Builder :=
  match b.stack with
  | [] => { b with root := b.root.append [node] }
  | block :: rest => { b with stack := block.add node :: rest }

def push (b : Builder) (block : OpenBlock) : Builder :=
  { b with stack := block :: b.stack }

/-- Closes the innermost block when `directive` belongs to its kind. -/
def close (b : Builder) (directive : Continuation) : Except CompileFault Builder :=
  match b.stack with
  | [] => .error (.outsideOfBlock directive)
  | block :: rest =>
    if block.kind = directive.block then .ok ({ b with stack := rest }.add block.close)
    else .error (.outsideOfBlock directive)

def otherwise (b : Builder) : Except CompileFault Builder :=
  match b.stack with
  | .cond _ _ (some _) _ :: _ => .error .elseInsideElse
  | .cond condition thenBranch none span :: rest =>
    .ok { b with stack := .cond condition thenBranch (some .empty) span :: rest }
  | _ => .error (.outsideOfBlock .otherwise)

def directive (b : Builder) (span : Span) : Directive → Except CompileFault Builder
  | .comment => .ok b
  | .escape braces => .ok (b.add (.text braces span))
  | .subst path => .ok (b.add (.subst path span))
  | .openCond condition => .ok (b.push (.cond condition .empty none span))
  | .openLoop var iterable => .ok (b.push (.loop var iterable .empty span))
  | .continuation .otherwise => b.otherwise
  | .continuation .endCond => b.close .endCond
  | .continuation .endLoop => b.close .endLoop

def piece (b : Builder) : Piece → Except CompileError Builder
  | .text bytes span => .ok (b.add (.text bytes span))
  | .directive content span =>
    ((Directive.read content).bind (b.directive span)).mapError (.inside span)

/-- The finished tree, when no block is open at the end of the source on `line`. -/
def finish (b : Builder) (line : Nat) : Except CompileError Template :=
  match b.stack with
  | [] => .ok ⟨b.root.toList⟩
  | block :: _ => .error ⟨.unclosedBlock block.kind block.span.line, line, block.span⟩

end Builder

namespace Template

/-- The template that a source spells.  The first error is final. -/
def compile (source : Bytes) : Except CompileError Template := do
  let cut := Piece.cut source
  let builder ← cut.pieces.foldlM Builder.piece {}
  let line ← cut.ending
  builder.finish line

end Template
end Stencil
