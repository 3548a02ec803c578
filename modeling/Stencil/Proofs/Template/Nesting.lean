import Stencil.Proofs.Template.Completeness

/-!
# Open blocks

A source that breaks off inside of blocks leaves these open.  Which blocks they
are follows from the grammar alone: everything behind the directive that opens
the innermost one, or behind its `else`, is complete.  The stack of the compiler
holds just these blocks.
-/

namespace Stencil

structure Pending where
  kind : BlockKind
  divided : Bool
  span : Span
  deriving DecidableEq, Repr

def Fragment.spanBehind (before : List Fragment) (fragment : Fragment) : Span where
  line := 1 + Bytes.countNewlines (before.flatMap source)
  start := (before.flatMap source).length
  stop := (before.flatMap source).length + fragment.source.length

/-- The blocks that fragments leave open, innermost first. -/
inductive LeavesOpen : List Fragment → List Pending → Prop where
  | root {fragments : List Fragment} {trees : List Tree} :
      Derives fragments trees → LeavesOpen fragments []
  | cond {before inner : List Fragment} {blocks : List Pending} {opening : Bytes}
    {condition : Path}
      {trees : List Tree} :
      LeavesOpen before blocks → Directive.Reads opening (.openCond condition) →
      Derives inner trees →
      LeavesOpen (before ++ .directive opening :: inner)
        (⟨.cond, false, Fragment.spanBehind before (.directive opening)⟩ :: blocks)
  | divided {before first second : List Fragment} {blocks : List Pending}
    {opening middle : Bytes}
      {condition : Path} {trees others : List Tree} :
      LeavesOpen before blocks → Directive.Reads opening (.openCond condition) →
      Derives first trees → Directive.Reads middle (.continuation .otherwise) →
      Derives second others →
      LeavesOpen (before ++ .directive opening :: (first ++ .directive middle :: second))
        (⟨.cond, true, Fragment.spanBehind before (.directive opening)⟩ :: blocks)
  | loop {before inner : List Fragment} {blocks : List Pending} {opening var : Bytes}
      {iterable : Path} {trees : List Tree} :
      LeavesOpen before blocks → Directive.Reads opening (.openLoop var iterable) →
      Derives inner trees →
      LeavesOpen (before ++ .directive opening :: inner)
        (⟨.loop, false, Fragment.spanBehind before (.directive opening)⟩ :: blocks)

/-- No block that a word may continue or close is the innermost one
of those that are open. -/
inductive Rejects (blocks : List Pending) : Continuation → CompileFault → Prop where
  | outside {word : Continuation} :
      (∀ block ∈ blocks.head?, block.kind ≠ word.block) →
      Rejects blocks word (.outsideOfBlock word)
  | twice {block : Pending} :
      blocks.head? = some block → block.kind = .cond → block.divided = true →
      Rejects blocks .otherwise .elseInsideElse

/-!
# Fragments that follow
-/

theorem Derives.append {front back : List Fragment} {trees others : List Tree}
    (hfront : Derives front trees) (hback : Derives back others) :
    Derives (front ++ back) (trees ++ others) := by
  induction hfront with
  | nil =>
      exact hback
  | text _ ih =>
      exact Derives.text ih
  | comment hreads _ ih =>
      exact Derives.comment hreads ih
  | escape hreads _ ih =>
      exact Derives.escape hreads ih
  | subst hreads _ ih =>
      exact Derives.subst hreads ih
  | cond hopening hinner hclosing _ _ ih =>
      rw [List.cons_append, List.append_assoc, List.cons_append]
      exact Derives.cond hopening hinner hclosing ih
  | condElse hopening hfirst hmiddle hsecond hclosing _ _ _ ih =>
      rw [List.cons_append, List.append_assoc, List.cons_append, List.append_assoc,
        List.cons_append]
      exact Derives.condElse hopening hfirst hmiddle hsecond hclosing ih
  | loop hopening hinner hclosing _ _ ih =>
      rw [List.cons_append, List.append_assoc, List.cons_append]
      exact Derives.loop hopening hinner hclosing ih

namespace LeavesOpen

theorem append {front more : List Fragment} {blocks : List Pending} {trees : List Tree}
    (h : LeavesOpen front blocks) (hmore : Derives more trees) :
    LeavesOpen (front ++ more) blocks := by
  cases h with
  | root hfront =>
      exact root (hfront.append hmore)
  | cond hbefore hopening hinner =>
      rw [List.append_assoc, List.cons_append]
      exact cond hbefore hopening (hinner.append hmore)
  | divided hbefore hopening hfirst hmiddle hsecond =>
      rw [List.append_assoc, List.cons_append, List.append_assoc, List.cons_append]
      exact divided hbefore hopening hfirst hmiddle (hsecond.append hmore)
  | loop hbefore hopening hinner =>
      rw [List.append_assoc, List.cons_append]
      exact loop hbefore hopening (hinner.append hmore)

theorem divide {front : List Fragment} {blocks : List Pending} {span : Span} {middle : Bytes}
    (h : LeavesOpen front (⟨.cond, false, span⟩ :: blocks))
    (hmiddle : Directive.Reads middle (.continuation .otherwise)) :
    LeavesOpen (front ++ [.directive middle]) (⟨.cond, true, span⟩ :: blocks) := by
  cases h with
  | cond hbefore hopening hinner =>
      rw [List.append_assoc, List.cons_append]
      exact divided hbefore hopening hinner hmiddle Derives.nil

theorem close {front : List Fragment} {block : Pending} {blocks : List Pending}
    {closing : Bytes} {word : Continuation} (h : LeavesOpen front (block :: blocks))
    (hclosing : Directive.Reads closing (.continuation word)) (hkind : block.kind = word.block)
    (hword : word ≠ .otherwise) : LeavesOpen (front ++ [.directive closing]) blocks := by
  cases h with
  | cond hbefore hopening hinner =>
      cases word with
      | otherwise =>
          exact absurd rfl hword
      | endCond =>
          rw [List.append_assoc, List.cons_append]
          exact hbefore.append (Derives.cond hopening hinner hclosing Derives.nil)
      | endLoop =>
          cases hkind
  | divided hbefore hopening hfirst hmiddle hsecond =>
      cases word with
      | otherwise =>
          exact absurd rfl hword
      | endCond =>
          rw [List.append_assoc, List.cons_append, List.append_assoc, List.cons_append]
          exact hbefore.append
            (Derives.condElse hopening hfirst hmiddle hsecond hclosing Derives.nil)
      | endLoop =>
          cases hkind
  | loop hbefore hopening hinner =>
      cases word with
      | otherwise =>
          cases hkind
      | endCond =>
          cases hkind
      | endLoop =>
          rw [List.append_assoc, List.cons_append]
          exact hbefore.append (Derives.loop hopening hinner hclosing Derives.nil)

theorem exists_before {fragments : List Fragment} {block : Pending} {blocks : List Pending}
    (h : LeavesOpen fragments (block :: blocks)) :
    ∃ before opening inner, fragments = before ++ .directive opening :: inner ∧
      LeavesOpen before blocks ∧
      block.span = Fragment.spanBehind before (.directive opening) := by
  cases h with
  | cond hbefore _ _ =>
      exact ⟨_, _, _, rfl, hbefore, rfl⟩
  | divided hbefore _ _ _ _ =>
      exact ⟨_, _, _, rfl, hbefore, rfl⟩
  | loop hbefore _ _ =>
      exact ⟨_, _, _, rfl, hbefore, rfl⟩

end LeavesOpen

/-!
# The stack of the compiler
-/

def OpenBlock.pending : OpenBlock → Pending
  | .cond _ _ elseBranch span => ⟨.cond, elseBranch.isSome, span⟩
  | .loop _ _ _ span => ⟨.loop, false, span⟩

theorem OpenBlock.pending_addAll (block : OpenBlock) (nodes : List Node) :
    (block.addAll nodes).pending = block.pending := by
  rcases block with ⟨condition, thenBranch, _ | elseBranch, span⟩ | ⟨var, iterable, body, span⟩
  · rfl
  · rfl
  · rfl

theorem OpenBlock.kind_pending (block : OpenBlock) : block.pending.kind = block.kind := by
  cases block with
  | cond condition thenBranch elseBranch span =>
      rfl
  | loop var iterable body span =>
      rfl

theorem OpenBlock.span_pending (block : OpenBlock) : block.pending.span = block.span := by
  cases block with
  | cond condition thenBranch elseBranch span =>
      rfl
  | loop var iterable body span =>
      rfl

namespace Builder

def pending (b : Builder) : List Pending :=
  b.stack.map OpenBlock.pending

theorem pending_addAll (b : Builder) (nodes : List Node) :
    (b.addAll nodes).pending = b.pending := by
  rcases b with ⟨root, _ | ⟨block, stack⟩⟩
  · rfl
  · rw [pending, addAll, pending, List.map_cons, List.map_cons, OpenBlock.pending_addAll]

theorem pending_add (b : Builder) (node : Node) : (b.add node).pending = b.pending := by
  rw [← addAll_singleton, pending_addAll]

theorem pending_of_close {b b' : Builder} {word : Continuation} (h : b.close word = .ok b') :
    ∃ block, b.pending = block :: b'.pending ∧ block.kind = word.block := by
  rcases b with ⟨root, _ | ⟨block, stack⟩⟩
  · cases h
  · unfold close at h
    simp only at h
    split at h
    · rename_i hkind
      cases h
      refine ⟨block.pending, ?_, ?_⟩
      · rw [pending_add]
        rfl
      · rw [OpenBlock.kind_pending, hkind]
    · cases h

theorem pending_of_otherwise {b b' : Builder} (h : b.otherwise = .ok b') :
    ∃ span blocks, b.pending = ⟨.cond, false, span⟩ :: blocks ∧
      b'.pending = ⟨.cond, true, span⟩ :: blocks := by
  rcases b with ⟨root, _ | ⟨⟨condition, thenBranch, _ | elseBranch, span⟩ | _, stack⟩⟩
  · cases h
  · cases h
    exact ⟨span, stack.map OpenBlock.pending, rfl, rfl⟩
  · cases h
  · cases h

theorem rejects_of_close {b : Builder} {word : Continuation} {fault : CompileFault}
    (h : b.close word = .error fault) : Rejects b.pending word fault := by
  rcases b with ⟨root, _ | ⟨block, stack⟩⟩
  · cases h
    exact Rejects.outside nofun
  · unfold close at h
    simp only at h
    split at h
    · cases h
    · rename_i hkind
      cases h
      apply Rejects.outside
      intro other hother
      cases hother
      rw [OpenBlock.kind_pending]
      exact hkind

theorem rejects_of_otherwise {b : Builder} {fault : CompileFault}
    (h : b.otherwise = .error fault) :
    Rejects b.pending .otherwise fault := by
  rcases b with ⟨root, _ | ⟨⟨condition, thenBranch, _ | elseBranch, span⟩ | _, stack⟩⟩
  · cases h
    exact Rejects.outside nofun
  · cases h
  · cases h
    exact Rejects.twice rfl rfl rfl
  · cases h
    apply Rejects.outside
    intro block hblock
    cases hblock
    exact nofun

theorem exists_rejects_of_directive {b : Builder} {span : Span} {d : Directive}
    {fault : CompileFault} (h : b.directive span d = .error fault) :
    ∃ word, d = .continuation word ∧ Rejects b.pending word fault := by
  cases d with
  | continuation word =>
      refine ⟨word, rfl, ?_⟩
      cases word with
      | otherwise =>
          exact rejects_of_otherwise h
      | endCond =>
          exact rejects_of_close h
      | endLoop =>
          exact rejects_of_close h
  | _ =>
      cases h

end Builder

/-!
# What the compiler has left open
-/

namespace LeavesOpen

theorem directive {done : List Fragment} {content : Bytes} {d : Directive} {b b' : Builder}
    (h : LeavesOpen done b.pending) (hreads : Directive.Reads content d)
    (hstep : b.directive (Fragment.spanBehind done (.directive content)) d = .ok b') :
    LeavesOpen (done ++ [.directive content]) b'.pending := by
  cases d with
  | comment =>
      cases hstep
      exact h.append (Derives.comment hreads Derives.nil)
  | escape braces =>
      cases hstep
      rw [Builder.pending_add]
      exact h.append (Derives.escape hreads Derives.nil)
  | subst path =>
      cases hstep
      rw [Builder.pending_add]
      exact h.append (Derives.subst hreads Derives.nil)
  | openCond condition =>
      cases hstep
      exact cond h hreads Derives.nil
  | openLoop var iterable =>
      cases hstep
      exact loop h hreads Derives.nil
  | continuation word =>
      cases word with
      | otherwise =>
          rcases Builder.pending_of_otherwise hstep with ⟨span, blocks, hbefore, hafter⟩
          rw [hbefore] at h
          rw [hafter]
          exact h.divide hreads
      | endCond =>
          rcases Builder.pending_of_close hstep with ⟨block, hpending, hkind⟩
          rw [hpending] at h
          exact h.close hreads hkind (by decide)
      | endLoop =>
          rcases Builder.pending_of_close hstep with ⟨block, hpending, hkind⟩
          rw [hpending] at h
          exact h.close hreads hkind (by decide)

theorem piece {done : List Fragment} {fragment : Fragment} (hvalid : fragment.Valid)
    {b b' : Builder} (h : LeavesOpen done b.pending)
    (hstep : b.piece (fragment.toPiece (fragment.spanBehind done)) = .ok b') :
    LeavesOpen (done ++ [fragment]) b'.pending := by
  cases fragment with
  | text bytes =>
      cases hstep
      rw [Builder.pending_add]
      exact h.append (Derives.text Derives.nil)
  | directive content =>
      rcases (Builder.piece_directive_eq_ok_iff hvalid.right.left _ b b').mp hstep with
        ⟨d, hreads, hdirective⟩
      exact h.directive hreads hdirective

/-- Whatever the compiler reads, its stack holds the blocks that are open behind it. -/
theorem of_foldlM {done rest : List Fragment} (hvalid : ∀ fragment ∈ rest, fragment.Valid)
    {b b' : Builder} (h : LeavesOpen done b.pending)
    (hfold : (Fragment.place (done.flatMap Fragment.source).length
      (1 + Bytes.countNewlines (done.flatMap Fragment.source)) rest).foldlM Builder.piece b =
        .ok b') :
    LeavesOpen (done ++ rest) b'.pending := by
  -- `done` is what has been read, so that the next piece stands at the span behind it.
  induction rest generalizing done b with
  | nil =>
      cases hfold
      rw [List.append_nil]
      exact h
  | cons fragment rest ih =>
      rw [List.forall_mem_cons] at hvalid
      rcases (foldlM_cons_eq_ok_iff _ _ b b').mp hfold with ⟨next, hstep, hrest⟩
      have hsource : (done ++ [fragment]).flatMap Fragment.source =
          done.flatMap Fragment.source ++ fragment.source := by
        simp
      have hafter := ih hvalid.right (h.piece hvalid.left hstep)
      rw [hsource, List.length_append, Bytes.countNewlines_append, ← Nat.add_assoc,
        List.append_assoc] at hafter
      exact hafter hrest

theorem exists_foldlM {fragments : List Fragment} {blocks : List Pending}
    (h : LeavesOpen fragments blocks) :
    ∃ b, (Fragment.place 0 1 fragments).foldlM Builder.piece {} = .ok b ∧
      b.pending = blocks := by
  induction h with
  | root hderives =>
      rcases hderives.builds 0 1 {} with ⟨nodes, _, hfold⟩
      exact ⟨_, hfold, Builder.pending_addAll {} nodes⟩
  | cond _ hopening hinner ih =>
      rcases ih with ⟨b, hbefore, rfl⟩
      rw [Fragment.place_append, foldlM_append_of_ok hbefore, Nat.zero_add, Fragment.place,
        foldlM_cons_of_ok (Builder.piece_of_reads hopening rfl)]
      rcases hinner.builds _ _ (b.push _) with ⟨nodes, _, hfold⟩
      exact ⟨_, hfold, Builder.pending_addAll _ nodes⟩
  | divided _ hopening hfirst hmiddle hsecond ih =>
      rcases ih with ⟨b, hbefore, rfl⟩
      rw [Fragment.place_append, foldlM_append_of_ok hbefore, Nat.zero_add, Fragment.place,
        foldlM_cons_of_ok (Builder.piece_of_reads hopening rfl), Fragment.place_append]
      rcases hfirst.builds _ _ (b.push _) with ⟨front, _, hfront⟩
      rw [foldlM_append_of_ok hfront, Fragment.place,
        foldlM_cons_of_ok (Builder.piece_of_reads hmiddle rfl)]
      rcases hsecond.builds _ _ _ with ⟨back, _, hback⟩
      exact ⟨_, hback, Builder.pending_addAll _ back⟩
  | loop _ hopening hinner ih =>
      rcases ih with ⟨b, hbefore, rfl⟩
      rw [Fragment.place_append, foldlM_append_of_ok hbefore, Nat.zero_add, Fragment.place,
        foldlM_cons_of_ok (Builder.piece_of_reads hopening rfl)]
      rcases hinner.builds _ _ (b.push _) with ⟨nodes, _, hfold⟩
      exact ⟨_, hfold, Builder.pending_addAll _ nodes⟩

end LeavesOpen

/-!
# Sources
-/

def OpenAtEnd (bytes : Bytes) (blocks : List Pending) : Prop :=
  ∃ fragments, Fragment.Cuts bytes fragments ∧ LeavesOpen fragments blocks

theorem openAtEnd_iff (bytes : Bytes) (blocks : List Pending) :
    OpenAtEnd bytes blocks ↔
      ∃ fragments b, Fragment.Cuts bytes fragments ∧
        (Fragment.place 0 1 fragments).foldlM Builder.piece {} = .ok b ∧
        b.pending = blocks := by
  constructor
  · intro h
    rcases h with ⟨fragments, hcuts, hopen⟩
    rcases hopen.exists_foldlM with ⟨b, hfold, hpending⟩
    exact ⟨fragments, b, hcuts, hfold, hpending⟩
  · intro h
    rcases h with ⟨fragments, b, hcuts, hfold, rfl⟩
    have hstart : LeavesOpen [] (Builder.pending {}) := LeavesOpen.root Derives.nil
    exact ⟨fragments, hcuts, hstart.of_foldlM hcuts.valid hfold⟩

theorem OpenAtEnd.unique {bytes : Bytes} {blocks others : List Pending}
    (h : OpenAtEnd bytes blocks) (hothers : OpenAtEnd bytes others) : others = blocks := by
  rcases (openAtEnd_iff bytes blocks).mp h with ⟨fragments, b, hcuts, hfold, rfl⟩
  rcases (openAtEnd_iff bytes others).mp hothers with ⟨fragments', b', hcuts', hfold', rfl⟩
  have hplace : Fragment.place 0 1 fragments = Fragment.place 0 1 fragments' :=
    congrArg Cut.pieces ((hcuts.cutOn 0 1).symm.trans (hcuts'.cutOn 0 1))
  rw [hplace, hfold'] at hfold
  cases hfold
  rfl

def InnermostAtEnd (bytes : Bytes) (block? : Option Pending) : Prop :=
  (∃ blocks, OpenAtEnd bytes blocks) ∧ ∀ blocks, OpenAtEnd bytes blocks → blocks.head? = block?

theorem OpenAtEnd.innermost {bytes : Bytes} {blocks : List Pending}
    (h : OpenAtEnd bytes blocks) :
    InnermostAtEnd bytes blocks.head? := by
  refine ⟨⟨blocks, h⟩, ?_⟩
  intro others hothers
  rw [h.unique hothers]

end Stencil
