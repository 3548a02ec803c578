import Stencil.Proofs.Template.Builder
import Stencil.Proofs.Template.Derivation

/-!
# Derivations are compiled
-/

namespace Stencil

/-- Wherever the fragments stand, the compiler adds the nodes of these trees for them. -/
def Builds (fragments : List Fragment) (trees : List Tree) : Prop :=
  ∀ offset line (b : Builder), ∃ nodes, Node.shapes nodes = trees ∧
    (Fragment.place offset line fragments).foldlM Builder.piece b = .ok (b.addAll nodes)

/-- Wherever the fragments stand, the compiler is then in a block
that closes as this tree. -/
def Opens (fragments : List Fragment) (kind : BlockKind) (tree : Tree) : Prop :=
  ∀ offset line (b : Builder), ∃ block : OpenBlock, block.kind = kind ∧
    block.close.shape = tree ∧
    (Fragment.place offset line fragments).foldlM Builder.piece b = .ok (b.push block)

namespace Builds

theorem nil : Builds [] [] := by
  intro offset line b
  refine ⟨[], rfl, ?_⟩
  rw [Builder.addAll_nil]
  rfl

theorem cons {fragment : Fragment} {tree : Tree} {rest : List Fragment} {trees : List Tree}
    (hfragment : ∀ span (b : Builder), ∃ node, node.shape = tree ∧
      b.piece (fragment.toPiece span) = .ok (b.add node))
    (hrest : Builds rest trees) : Builds (fragment :: rest) (tree :: trees) := by
  intro offset line b
  rw [Fragment.place]
  rcases hfragment ⟨line, offset, offset + fragment.source.length⟩ b with ⟨node, hnode, hstep⟩
  rw [foldlM_cons_of_ok hstep]
  rcases hrest (offset + fragment.source.length) (line + Bytes.countNewlines fragment.source)
    (b.add node) with ⟨nodes, hnodes, hfold⟩
  refine ⟨node :: nodes, ?_, ?_⟩
  · rw [Node.shapes, hnode, hnodes]
  · rw [hfold, ← Builder.addAll_singleton, Builder.addAll_addAll, List.singleton_append]

theorem comment {content : Bytes} {rest : List Fragment} {trees : List Tree}
    (h : Directive.Reads content .comment) (hrest : Builds rest trees) :
    Builds (.directive content :: rest) trees := by
  intro offset line b
  rw [Fragment.place, foldlM_cons_of_ok (Builder.piece_of_reads h rfl)]
  exact hrest _ _ b

theorem block {inner rest : List Fragment} {closing : Bytes} {word : Continuation}
    {tree : Tree} {trees : List Tree} (hinner : Opens inner word.block tree)
    (hclosing : Directive.Reads closing (.continuation word)) (hword : word ≠ .otherwise)
    (hrest : Builds rest trees) :
    Builds (inner ++ .directive closing :: rest) (tree :: trees) := by
  intro offset line b
  rw [Fragment.place_append]
  generalize offset + (inner.flatMap Fragment.source).length = offset'
  generalize line + Bytes.countNewlines (inner.flatMap Fragment.source) = line'
  rcases hinner offset line b with ⟨block, hkind, htree, hfold⟩
  have hclose : ∀ span, (b.push block).directive span (.continuation word) =
      .ok (b.add block.close) := by
    intro span
    cases word with
    | otherwise =>
        exact absurd rfl hword
    | endCond =>
        exact Builder.close_push b hkind
    | endLoop =>
        exact Builder.close_push b hkind
  rw [foldlM_append_of_ok hfold, Fragment.place,
    foldlM_cons_of_ok (Builder.piece_of_reads hclosing (hclose _))]
  rcases hrest _ _ (b.add block.close) with ⟨nodes, hnodes, hrest⟩
  refine ⟨block.close :: nodes, ?_, ?_⟩
  · rw [Node.shapes, htree, hnodes]
  · rw [hrest, ← Builder.addAll_singleton, Builder.addAll_addAll, List.singleton_append]

end Builds

namespace Opens

theorem cond {opening : Bytes} {condition : Path} {inner : List Fragment}
    {thenBranch : List Tree} (hopening : Directive.Reads opening (.openCond condition))
    (hinner : Builds inner thenBranch) :
    Opens (.directive opening :: inner) .cond (.cond condition thenBranch []) := by
  intro offset line b
  rw [Fragment.place, foldlM_cons_of_ok (Builder.piece_of_reads hopening rfl)]
  rcases hinner _ _ (b.push _) with ⟨nodes, hnodes, hfold⟩
  refine ⟨.cond condition (Log.empty.append nodes) none _, rfl, ?_, hfold⟩
  simp [OpenBlock.close, Node.shape, Node.shapes, hnodes]

theorem condElse {opening middle : Bytes} {condition : Path} {first second : List Fragment}
    {thenBranch elseBranch : List Tree}
    (hopening : Directive.Reads opening (.openCond condition))
    (hfirst : Builds first thenBranch)
    (hmiddle : Directive.Reads middle (.continuation .otherwise))
    (hsecond : Builds second elseBranch) :
    Opens (.directive opening :: (first ++ .directive middle :: second)) .cond
      (.cond condition thenBranch elseBranch) := by
  intro offset line b
  rw [Fragment.place, foldlM_cons_of_ok (Builder.piece_of_reads hopening rfl),
    Fragment.place_append]
  rcases hfirst _ _ (b.push _) with ⟨front, hfront, hfold⟩
  rw [foldlM_append_of_ok hfold, Fragment.place,
    foldlM_cons_of_ok (Builder.piece_of_reads hmiddle rfl)]
  rcases hsecond _ _ _ with ⟨back, hback, hfold⟩
  refine ⟨.cond condition (Log.empty.append front) (some (Log.empty.append back)) _,
    rfl, ?_, hfold⟩
  simp [OpenBlock.close, Node.shape, hfront, hback]

theorem loop {opening var : Bytes} {iterable : Path} {inner : List Fragment} {body : List Tree}
    (hopening : Directive.Reads opening (.openLoop var iterable))
    (hinner : Builds inner body) :
    Opens (.directive opening :: inner) .loop (.loop var iterable body) := by
  intro offset line b
  rw [Fragment.place, foldlM_cons_of_ok (Builder.piece_of_reads hopening rfl)]
  rcases hinner _ _ (b.push _) with ⟨nodes, hnodes, hfold⟩
  refine ⟨.loop var iterable (Log.empty.append nodes) _, rfl, ?_, hfold⟩
  simp [OpenBlock.close, Node.shape, hnodes]

end Opens

theorem Derives.builds {fragments : List Fragment} {trees : List Tree}
    (h : Derives fragments trees) : Builds fragments trees := by
  induction h with
  | nil =>
      exact Builds.nil
  | text _ ih =>
      exact Builds.cons (fun span b => ⟨.text _ span, rfl, rfl⟩) ih
  | comment hreads _ ih =>
      exact Builds.comment hreads ih
  | escape hreads _ ih =>
      exact Builds.cons
        (fun span b => ⟨.text _ span, rfl, Builder.piece_of_reads hreads rfl⟩) ih
  | subst hreads _ ih =>
      exact Builds.cons
        (fun span b => ⟨.subst _ span, rfl, Builder.piece_of_reads hreads rfl⟩) ih
  | cond hopening _ hclosing _ ihinner ihrest =>
      exact Builds.block (Opens.cond hopening ihinner) hclosing (by decide) ihrest
  | condElse hopening _ hmiddle _ hclosing _ ihfirst ihsecond ihrest =>
      have hbuilds := Builds.block (Opens.condElse hopening ihfirst hmiddle ihsecond) hclosing
        (by decide) ihrest
      rw [List.cons_append, List.append_assoc, List.cons_append] at hbuilds
      exact hbuilds
  | loop hopening _ hclosing _ ihinner ihrest =>
      exact Builds.block (Opens.loop hopening ihinner) hclosing (by decide) ihrest

end Stencil
