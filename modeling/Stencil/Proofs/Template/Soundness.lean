import Stencil.Proofs.Template.Builder
import Stencil.Proofs.Template.Derivation

/-!
# What is compiled derives from the grammar

The compiler keeps the open blocks on a stack.  A stack stands for what is still to come:
the fragments that complete the innermost block, then those that complete the block around
it, and so on to the end of the source.
-/

namespace Stencil

/-!
# What is still to come
-/

/-- The fragments that complete an open block, its closing directive included, and the
tree that it becomes. -/
inductive OpenBlock.Fills : OpenBlock → List Fragment → Tree → Prop where
  | cond {condition : Path} {thenBranch : Log Node} {span : Span} {inner : List Fragment}
      {more : List Tree} {closing : Bytes} :
      Derives inner more → Directive.Reads closing (.continuation .endCond) →
      Fills (.cond condition thenBranch none span) (inner ++ [.directive closing])
        (.cond condition (Node.shapes thenBranch.toList ++ more) [])
  | condElse {condition : Path} {thenBranch : Log Node} {span : Span}
      {first second : List Fragment} {more elseBranch : List Tree} {middle closing : Bytes} :
      Derives first more → Directive.Reads middle (.continuation .otherwise) →
      Derives second elseBranch → Directive.Reads closing (.continuation .endCond) →
      Fills (.cond condition thenBranch none span)
        (first ++ .directive middle :: (second ++ [.directive closing]))
        (.cond condition (Node.shapes thenBranch.toList ++ more) elseBranch)
  | otherwise {condition : Path} {thenBranch elseBranch : Log Node} {span : Span}
      {inner : List Fragment} {more : List Tree} {closing : Bytes} :
      Derives inner more → Directive.Reads closing (.continuation .endCond) →
      Fills (.cond condition thenBranch (some elseBranch) span) (inner ++ [.directive closing])
        (.cond condition (Node.shapes thenBranch.toList)
          (Node.shapes elseBranch.toList ++ more))
  | loop {var : Bytes} {iterable : Path} {body : Log Node} {span : Span}
    {inner : List Fragment}
      {more : List Tree} {closing : Bytes} :
      Derives inner more → Directive.Reads closing (.continuation .endLoop) →
      Fills (.loop var iterable body span) (inner ++ [.directive closing])
        (.loop var iterable (Node.shapes body.toList ++ more))

/-- The fragments that complete all open blocks and reach the end of the source, and the
trees of the whole template. -/
inductive Builder.Completes : Builder → List Fragment → List Tree → Prop where
  | root {root : Log Node} {fragments : List Fragment} {more : List Tree} :
      Derives fragments more →
      Completes ⟨root, []⟩ fragments (Node.shapes root.toList ++ more)
  | block {root : Log Node} {block : OpenBlock} {stack : List OpenBlock} {node : Node}
      {inner rest : List Fragment} {trees : List Tree} :
      block.Fills inner node.shape → Completes (Builder.add ⟨root, stack⟩ node) rest trees →
      Completes ⟨root, block :: stack⟩ (inner ++ rest) trees

/-- Fragments in front of which any derivation may be continued by the trees of
`nodes`. -/
def Yields (front : List Fragment) (nodes : List Node) : Prop :=
  ∀ rest trees, Derives rest trees → Derives (front ++ rest) (Node.shapes nodes ++ trees)

theorem OpenBlock.Fills.prepend {front inner : List Fragment} {nodes : List Node} {tree : Tree}
    {block : OpenBlock} (hyields : Yields front nodes)
    (h : (block.addAll nodes).Fills inner tree) :
    block.Fills (front ++ inner) tree := by
  -- Only the constructors of `Fills` for the same kind and branch of block
  -- are left in each case.
  rcases block with ⟨condition, thenBranch, _ | elseBranch, span⟩ | ⟨var, iterable, body, span⟩
  · generalize hblock : (OpenBlock.cond condition thenBranch none span).addAll nodes =
      added at h
    cases h with
    | cond hinner hclosing =>
        cases hblock
        rw [Log.toList_append, Node.shapes_append, List.append_assoc, ← List.append_assoc]
        exact Fills.cond (hyields _ _ hinner) hclosing
    | condElse hfirst hmiddle hsecond hclosing =>
        cases hblock
        rw [Log.toList_append, Node.shapes_append, List.append_assoc, ← List.append_assoc]
        exact Fills.condElse (hyields _ _ hfirst) hmiddle hsecond hclosing
    | otherwise _ _ =>
        cases hblock
    | loop _ _ =>
        cases hblock
  · generalize hblock :
      (OpenBlock.cond condition thenBranch (some elseBranch) span).addAll nodes = added at h
    cases h with
    | cond _ _ =>
        cases hblock
    | condElse _ _ _ _ =>
        cases hblock
    | otherwise hinner hclosing =>
        cases hblock
        rw [Log.toList_append, Node.shapes_append, List.append_assoc, ← List.append_assoc]
        exact Fills.otherwise (hyields _ _ hinner) hclosing
    | loop _ _ =>
        cases hblock
  · generalize hblock : (OpenBlock.loop var iterable body span).addAll nodes = added at h
    cases h with
    | cond _ _ =>
        cases hblock
    | condElse _ _ _ _ =>
        cases hblock
    | otherwise _ _ =>
        cases hblock
    | loop hinner hclosing =>
        cases hblock
        rw [Log.toList_append, Node.shapes_append, List.append_assoc, ← List.append_assoc]
        exact Fills.loop (hyields _ _ hinner) hclosing

namespace Builder.Completes

theorem prepend {front rest : List Fragment} {nodes : List Node} {trees : List Tree}
    {b : Builder} (hyields : Yields front nodes) (h : (b.addAll nodes).Completes rest trees) :
    b.Completes (front ++ rest) trees := by
  rcases b with ⟨root, _ | ⟨block, stack⟩⟩
  · generalize hadded : (Builder.mk root []).addAll nodes = added at h
    cases h with
    | root hrest =>
        cases hadded
        rw [Log.toList_append, Node.shapes_append, List.append_assoc]
        exact Completes.root (hyields _ _ hrest)
    | block _ _ =>
        cases hadded
  · generalize hadded : (Builder.mk root (block :: stack)).addAll nodes = added at h
    cases h with
    | root _ =>
        cases hadded
    | block hfills hrest =>
        cases hadded
        rw [← List.append_assoc]
        exact Completes.block (hfills.prepend hyields) hrest

theorem prepend_node {fragment : Fragment} {rest : List Fragment} {node : Node}
    {trees : List Tree} {b : Builder} (hyields : Yields [fragment] [node])
    (h : (b.add node).Completes rest trees) : b.Completes (fragment :: rest) trees := by
  rw [← Builder.addAll_singleton] at h
  exact prepend hyields h

end Builder.Completes

/-!
# One step of the compiler, read backwards
-/

namespace OpenBlock

theorem close_fills {block : OpenBlock} {closing : Bytes} {word : Continuation}
    (hkind : block.kind = word.block) (hclosing : Directive.Reads closing (.continuation word))
    (hword : word ≠ .otherwise) : block.Fills [.directive closing] block.close.shape := by
  rcases block with ⟨condition, thenBranch, _ | elseBranch, span⟩ | ⟨var, iterable, body, span⟩
  · cases word with
    | otherwise =>
        exact absurd rfl hword
    | endCond =>
        have h : Fills (.cond condition thenBranch none span) _ _ :=
          Fills.cond Derives.nil hclosing
        rw [List.append_nil] at h
        exact h
    | endLoop =>
        cases hkind
  · cases word with
    | otherwise =>
        exact absurd rfl hword
    | endCond =>
        have h : Fills (.cond condition thenBranch (some elseBranch) span) _ _ :=
          Fills.otherwise Derives.nil hclosing
        rw [List.append_nil] at h
        exact h
    | endLoop =>
        cases hkind
  · cases word with
    | otherwise =>
        cases hkind
    | endCond =>
        cases hkind
    | endLoop =>
        have h : Fills (.loop var iterable body span) _ _ := Fills.loop Derives.nil hclosing
        rw [List.append_nil] at h
        exact h

theorem Fills.of_otherwise {condition : Path} {thenBranch : Log Node} {span : Span}
    {middle : Bytes} {inner : List Fragment} {tree : Tree}
    (hmiddle : Directive.Reads middle (.continuation .otherwise))
    (h : (OpenBlock.cond condition thenBranch (some .empty) span).Fills inner tree) :
    (OpenBlock.cond condition thenBranch none span).Fills (.directive middle ::
      inner) tree := by
  generalize hblock : OpenBlock.cond condition thenBranch (some .empty) span = block at h
  cases h with
  | cond _ _ =>
      cases hblock
  | condElse _ _ _ _ =>
      cases hblock
  | otherwise hinner hclosing =>
      cases hblock
      have hfills : Fills (.cond condition thenBranch none span) _ _ :=
        Fills.condElse Derives.nil hmiddle hinner hclosing
      rw [List.append_nil] at hfills
      exact hfills
  | loop _ _ =>
      cases hblock

end OpenBlock

namespace Builder.Completes

theorem of_push {opening : Fragment} {rest : List Fragment} {trees : List Tree} {b : Builder}
    {block : OpenBlock} (h : (b.push block).Completes rest trees)
    (hblock : ∀ inner node, block.Fills inner node.shape → Yields (opening :: inner) [node]) :
    b.Completes (opening :: rest) trees := by
  rcases b with ⟨root, stack⟩
  generalize hpushed : (Builder.mk root stack).push block = pushed at h
  cases h with
  | root _ =>
      cases hpushed
  | @block _ _ _ node inner rest _ hfills hrest =>
      cases hpushed
      rw [← Builder.addAll_singleton] at hrest
      exact prepend (hblock inner node hfills) hrest

theorem of_openCond {opening : Bytes} {condition : Path} {span : Span} {rest : List Fragment}
    {trees : List Tree} {b : Builder}
    (hopening : Directive.Reads opening (.openCond condition))
    (h : (b.push (.cond condition .empty none span)).Completes rest trees) :
    b.Completes (.directive opening :: rest) trees := by
  refine of_push h ?_
  intro inner node hfills rest trees hrest
  rw [Node.shapes, Node.shapes]
  generalize hblock : OpenBlock.cond condition .empty none span = block at hfills
  generalize node.shape = tree at hfills ⊢
  cases hfills with
  | cond hinner hclosing =>
      cases hblock
      rw [List.cons_append, List.append_assoc]
      exact Derives.cond hopening hinner hclosing hrest
  | condElse hfirst hmiddle hsecond hclosing =>
      cases hblock
      rw [List.cons_append, List.append_assoc, List.cons_append, List.append_assoc]
      exact Derives.condElse hopening hfirst hmiddle hsecond hclosing hrest
  | otherwise _ _ =>
      cases hblock
  | loop _ _ =>
      cases hblock

theorem of_openLoop {opening var : Bytes} {iterable : Path} {span : Span}
    {rest : List Fragment} {trees : List Tree} {b : Builder}
    (hopening : Directive.Reads opening (.openLoop var iterable))
    (h : (b.push (.loop var iterable .empty span)).Completes rest trees) :
    b.Completes (.directive opening :: rest) trees := by
  refine of_push h ?_
  intro inner node hfills rest trees hrest
  rw [Node.shapes, Node.shapes]
  generalize hblock : OpenBlock.loop var iterable .empty span = block at hfills
  generalize node.shape = tree at hfills ⊢
  cases hfills with
  | cond _ _ =>
      cases hblock
  | condElse _ _ _ _ =>
      cases hblock
  | otherwise _ _ =>
      cases hblock
  | loop hinner hclosing =>
      cases hblock
      rw [List.cons_append, List.append_assoc]
      exact Derives.loop hopening hinner hclosing hrest

theorem of_otherwise {middle : Bytes} {rest : List Fragment} {trees : List Tree}
    {b b' : Builder} (hmiddle : Directive.Reads middle (.continuation .otherwise))
    (hstep : b.otherwise = .ok b') (h : b'.Completes rest trees)
    : b.Completes (.directive middle :: rest) trees := by
  rcases b with ⟨root, _ | ⟨⟨condition, thenBranch, _ | elseBranch, span⟩ | _, stack⟩⟩
  · cases hstep
  · cases hstep
    generalize hstarted : Builder.mk root
      (OpenBlock.cond condition thenBranch (some .empty) span :: stack) = started at h
    cases h with
    | root _ =>
        cases hstarted
    | block hfills hrest =>
        cases hstarted
        exact Completes.block (hfills.of_otherwise hmiddle) hrest
  · cases hstep
  · cases hstep

theorem of_close {closing : Bytes} {word : Continuation} {rest : List Fragment}
    {trees : List Tree} {b b' : Builder}
    (hclosing : Directive.Reads closing (.continuation word)) (hword : word ≠ .otherwise)
    (hstep : b.close word = .ok b') (h : b'.Completes rest trees) :
    b.Completes (.directive closing :: rest) trees := by
  rcases b with ⟨root, _ | ⟨block, stack⟩⟩
  · cases hstep
  · unfold Builder.close at hstep
    simp only at hstep
    split at hstep
    · rename_i hkind
      cases hstep
      exact Completes.block (OpenBlock.close_fills hkind hclosing hword) h
    · cases hstep

theorem of_directive {content : Bytes} {d : Directive} {span : Span} {rest : List Fragment}
    {trees : List Tree} {b b' : Builder} (hreads : Directive.Reads content d)
    (hstep : b.directive span d = .ok b') (h : b'.Completes rest trees) :
    b.Completes (.directive content :: rest) trees := by
  cases d with
  | comment =>
      cases hstep
      rw [← Builder.addAll_nil b] at h
      have hyields : Yields [.directive content] [] :=
        fun _ _ hrest => Derives.comment hreads hrest
      exact prepend hyields h
  | escape braces =>
      cases hstep
      have hyields : Yields [.directive content] [.text braces span] :=
        fun _ _ hrest => Derives.escape hreads hrest
      exact prepend_node hyields h
  | subst path =>
      cases hstep
      have hyields : Yields [.directive content] [.subst path span] :=
        fun _ _ hrest => Derives.subst hreads hrest
      exact prepend_node hyields h
  | openCond condition =>
      cases hstep
      exact of_openCond hreads h
  | openLoop var iterable =>
      cases hstep
      exact of_openLoop hreads h
  | continuation word =>
      cases word with
      | otherwise =>
          exact of_otherwise hreads hstep h
      | endCond =>
          exact of_close hreads (by decide) hstep h
      | endLoop =>
          exact of_close hreads (by decide) hstep h

theorem of_piece {fragment : Fragment} {span : Span} {rest : List Fragment} {trees : List Tree}
    {b b' : Builder} (hvalid : fragment.Valid)
    (hstep : b.piece (fragment.toPiece span) = .ok b') (h : b'.Completes rest trees) :
    b.Completes (fragment :: rest) trees := by
  cases fragment with
  | text bytes =>
      cases hstep
      have hyields : Yields [.text bytes] [.text bytes span] :=
        fun _ _ hrest => Derives.text hrest
      exact prepend_node hyields h
  | directive content =>
      rcases (Builder.piece_directive_eq_ok_iff hvalid.right.left span b b').mp hstep with
        ⟨d, hreads, hdirective⟩
      exact of_directive hreads hdirective h

/-- What the compiler has read without leaving a block open is complete. -/
theorem of_foldlM {fragments : List Fragment} (hvalid : ∀ fragment ∈ fragments, fragment.Valid)
    {offset line : Nat} {b b' : Builder}
    (hfold : (Fragment.place offset line fragments).foldlM Builder.piece b = .ok b')
    (hstack : b'.stack = []) : b.Completes fragments (Node.shapes b'.root.toList) := by
  -- The compiler reads from the front, but what completes a builder is known from the end
  -- of the source, so that each step is taken back once the rest is complete.
  induction fragments generalizing offset line b with
  | nil =>
      have hb : b = b' := Except.ok.inj hfold
      subst hb
      rcases b with ⟨root, stack⟩
      cases hstack
      have h : Completes ⟨root, []⟩ [] _ := Completes.root Derives.nil
      rw [List.append_nil] at h
      exact h
  | cons fragment rest ih =>
      rw [List.forall_mem_cons] at hvalid
      rcases (foldlM_cons_eq_ok_iff _ _ b b').mp hfold with ⟨next, hstep, hrest⟩
      exact of_piece hvalid.left hstep (ih hvalid.right hrest)

end Builder.Completes

end Stencil
