import Stencil.Proofs.Except
import Stencil.Proofs.Template.Fragment
import Stencil.Proofs.Template.Words

/-!
# The compiler's steps

The pieces of a source change the builder one at a time.
-/

namespace Stencil

/-!
# Adding nodes
-/

namespace Log

variable {α : Type}

theorem append_nil (log : Log α) : log.append [] = log := by
  cases log
  rfl

theorem append_append (log : Log α) (front back : List α) :
    (log.append front).append back = log.append (front ++ back) := by
  simp [append, Nat.add_assoc]

end Log

namespace OpenBlock

def addAll (nodes : List Node) : OpenBlock → OpenBlock
  | .cond condition thenBranch (some elseBranch) span =>
    .cond condition thenBranch (some (elseBranch.append nodes)) span
  | .cond condition thenBranch none span => .cond condition (thenBranch.append nodes) none span
  | .loop var iterable body span => .loop var iterable (body.append nodes) span

theorem addAll_nil (block : OpenBlock) : block.addAll [] = block := by
  rcases block with ⟨condition, thenBranch, _ | elseBranch, span⟩ | ⟨var, iterable, body, span⟩
  · simp [addAll, Log.append_nil]
  · simp [addAll, Log.append_nil]
  · simp [addAll, Log.append_nil]

theorem addAll_singleton (block : OpenBlock) (node : Node) :
    block.addAll [node] = block.add node := by
  rcases block with ⟨condition, thenBranch, _ | elseBranch, span⟩ | ⟨var, iterable, body, span⟩
  · rfl
  · rfl
  · rfl

theorem addAll_addAll (block : OpenBlock) (front back : List Node) :
    (block.addAll front).addAll back = block.addAll (front ++ back) := by
  rcases block with ⟨condition, thenBranch, _ | elseBranch, span⟩ | ⟨var, iterable, body, span⟩
  · simp [addAll, Log.append_append]
  · simp [addAll, Log.append_append]
  · simp [addAll, Log.append_append]

end OpenBlock

namespace Builder

def addAll (b : Builder) (nodes : List Node) : Builder :=
  match b.stack with
  | [] => { b with root := b.root.append nodes }
  | block :: rest => { b with stack := block.addAll nodes :: rest }

theorem addAll_nil (b : Builder) : b.addAll [] = b := by
  rcases b with ⟨root, _ | ⟨block, stack⟩⟩
  · simp [addAll, Log.append_nil]
  · simp [addAll, OpenBlock.addAll_nil]

theorem addAll_singleton (b : Builder) (node : Node) : b.addAll [node] = b.add node := by
  rcases b with ⟨root, _ | ⟨block, stack⟩⟩
  · rfl
  · simp [addAll, add, OpenBlock.addAll_singleton]

theorem addAll_addAll (b : Builder) (front back : List Node) :
    (b.addAll front).addAll back = b.addAll (front ++ back) := by
  rcases b with ⟨root, _ | ⟨block, stack⟩⟩
  · simp [addAll, Log.append_append]
  · simp [addAll, OpenBlock.addAll_addAll]

end Builder

/-!
# Reading pieces
-/

namespace Builder

theorem piece_directive_eq_ok_iff {content : Bytes} (hne : content ≠ []) (span : Span)
    (b b' : Builder) :
    b.piece (.directive content span) = .ok b' ↔
      ∃ d, Directive.Reads content d ∧ b.directive span d = .ok b' := by
  have hbind : (Directive.read content).bind (b.directive span) = .ok b' ↔
      ∃ d, Directive.read content = .ok d ∧ b.directive span d = .ok b' :=
    bind_eq_ok_iff _ _ _
  rw [piece, mapError_eq_ok_iff, hbind]
  apply exists_congr
  intro d
  rw [Directive.read_eq_ok_iff hne]

theorem piece_of_reads {content : Bytes} {d : Directive} (h : Directive.Reads content d)
    {span : Span} {b b' : Builder} (hdirective : b.directive span d = .ok b') :
    b.piece ((Fragment.directive content).toPiece span) = .ok b' :=
  (piece_directive_eq_ok_iff h.ne_nil span b b').mpr ⟨d, h, hdirective⟩

theorem close_push (b : Builder) {block : OpenBlock} {word : Continuation}
    (hkind : block.kind = word.block) :
    (b.push block).close word = .ok (b.add block.close) := by
  rw [close, push]
  simp only
  rw [if_pos hkind]

end Builder

end Stencil
