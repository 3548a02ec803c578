import Stencil.Proofs.Template.Builder

/-!
# Nodes in document order

The compiler moves a node into the block around it only when that block closes.  What it
has read so far nevertheless grows at the end only, once the nodes are listed in document
order without what they enclose.
-/

namespace Stencil

namespace Node

def head : Node → Node
  | .text bytes span => .text bytes span
  | .subst path span => .subst path span
  | .cond condition _ _ span => .cond condition [] [] span
  | .loop var iterable _ span => .loop var iterable [] span

@[simp]
theorem head_span (node : Node) : node.head.span = node.span := by
  cases node with
  | text bytes span =>
      rfl
  | subst path span =>
      rfl
  | cond condition thenBranch elseBranch span =>
      rfl
  | loop var iterable body span =>
      rfl

mutual

def heads : Node → List Node
  | .text bytes span => [.text bytes span]
  | .subst path span => [.subst path span]
  | .cond condition thenBranch elseBranch span =>
    .cond condition [] [] span :: (allHeads thenBranch ++ allHeads elseBranch)
  | .loop var iterable body span => .loop var iterable [] span :: allHeads body

def allHeads : List Node → List Node
  | [] => []
  | node :: rest => heads node ++ allHeads rest

end

@[simp]
theorem allHeads_append (front back : List Node) :
    allHeads (front ++ back) = allHeads front ++ allHeads back := by
  induction front with
  | nil =>
      rfl
  | cons node front ih =>
      rw [List.cons_append, allHeads, allHeads, ih, List.append_assoc]

mutual

theorem map_head_outline (depth : Nat) (branch : Branch) :
    ∀ node, (outline depth branch node).map (fun entry => entry.2.2.head) = heads node
  | .text bytes span => rfl
  | .subst path span => rfl
  | .cond condition thenBranch elseBranch span => by
      rw [outline, List.map_cons, List.map_append, map_head_outlineAll,
        map_head_outlineAll, heads]
      rfl
  | .loop var iterable body span => by
      rw [outline, List.map_cons, map_head_outlineAll, heads]
      rfl

theorem map_head_outlineAll (depth : Nat) (branch : Branch) :
    ∀ nodes, (outlineAll depth branch nodes).map (fun entry => entry.2.2.head) = allHeads nodes
  | [] => rfl
  | node :: rest => by
      rw [outlineAll, List.map_append, map_head_outline, map_head_outlineAll, allHeads]

end

end Node

/-!
# Heads that the compiler has read
-/

namespace OpenBlock

def heads : OpenBlock → List Node
  | .cond condition thenBranch elseBranch span =>
    .cond condition [] [] span ::
      (Node.allHeads thenBranch.toList ++ Node.allHeads (elseBranch.getD .empty).toList)
  | .loop var iterable body span => .loop var iterable [] span :: Node.allHeads body.toList

theorem heads_add (block : OpenBlock) (node : Node) :
    (block.add node).heads = block.heads ++ node.heads := by
  rcases block with ⟨condition, thenBranch, _ | elseBranch, span⟩ | ⟨var, iterable, body, span⟩
  · simp [add, heads, Node.allHeads]
  · simp [add, heads, Node.allHeads]
  · simp [add, heads, Node.allHeads]

theorem heads_close (block : OpenBlock) : block.close.heads = block.heads := by
  cases block with
  | cond condition thenBranch elseBranch span =>
      rw [close, Node.heads, heads]
  | loop var iterable body span =>
      rw [close, Node.heads, heads]

end OpenBlock

def Directive.heads (span : Span) : Directive → List Node
  | .comment => []
  | .escape braces => [.text braces span]
  | .subst path => [.subst path span]
  | .openCond condition => [.cond condition [] [] span]
  | .openLoop var iterable => [.loop var iterable [] span]
  | .continuation _ => []

namespace Builder

def heads (b : Builder) : List Node :=
  Node.allHeads b.root.toList ++ b.stack.reverse.flatMap OpenBlock.heads

theorem heads_push (b : Builder) (block : OpenBlock) :
    (b.push block).heads = b.heads ++ block.heads := by
  simp [heads, push]

theorem heads_add (b : Builder) (node : Node) :
    (b.add node).heads = b.heads ++ node.heads := by
  rcases b with ⟨root, _ | ⟨block, stack⟩⟩
  · simp [heads, add, Node.allHeads]
  · simp [heads, add, OpenBlock.heads_add]

theorem heads_close {b b' : Builder} {word : Continuation} (h : b.close word = .ok b') :
    b'.heads = b.heads := by
  rcases b with ⟨root, _ | ⟨block, stack⟩⟩
  · cases h
  · unfold close at h
    simp only at h
    split at h
    · cases h
      have hpush : (Builder.mk root (block :: stack)) =
          (Builder.mk root stack).push block := rfl
      rw [heads_add, OpenBlock.heads_close, hpush, heads_push]
    · cases h

theorem heads_otherwise {b b' : Builder} (h : b.otherwise = .ok b') : b'.heads = b.heads := by
  rcases b with ⟨root, _ | ⟨⟨condition, thenBranch, _ | elseBranch, span⟩ | _, stack⟩⟩
  · cases h
  · cases h
    simp [heads, OpenBlock.heads]
  · cases h
  · cases h

theorem heads_directive {b b' : Builder} {span : Span} {d : Directive}
    (h : b.directive span d = .ok b') : b'.heads = b.heads ++ d.heads span := by
  cases d with
  | comment =>
      cases h
      exact (List.append_nil _).symm
  | escape braces =>
      cases h
      exact heads_add b _
  | subst path =>
      cases h
      exact heads_add b _
  | openCond condition =>
      cases h
      exact heads_push b _
  | openLoop var iterable =>
      cases h
      exact heads_push b _
  | continuation word =>
      rw [Directive.heads, List.append_nil]
      cases word with
      | otherwise =>
          exact heads_otherwise h
      | endCond =>
          exact heads_close h
      | endLoop =>
          exact heads_close h

end Builder

end Stencil
