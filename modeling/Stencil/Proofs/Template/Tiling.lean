import Stencil.Proofs.Bytes.Slice
import Stencil.Proofs.Template.Heads

/-!
# Spans tile the source

Compiling loses, doubles and reorders no byte of a source: in document order the
nodes stand for one stretch of it after the other, and between these are only
directives that make no node.
-/

namespace Stencil

/-!
# Stretches of a source
-/

inductive Node.Spells : Node → Bytes → Prop where
  | text {bytes : Bytes} {span : Span} : Spells (.text bytes span) bytes
  | escape {braces : Bytes} {span : Span} :
      (∀ b ∈ braces, b = Byte.openBrace) →
      Spells (.text braces span) (Fragment.directive braces).source
  | subst {path : Path} {span : Span} :
      Spells (.subst path span) (Fragment.directive path).source
  | cond {condition : Path} {thenBranch elseBranch : List Node} {span : Span} :
      Spells (.cond condition thenBranch elseBranch span)
        (Fragment.directive (Directive.ifWord ++ Byte.space :: condition)).source
  | loop {var : Bytes} {iterable : Path} {body : List Node} {span : Span} :
      Spells (.loop var iterable body span)
        (Fragment.directive
          (Directive.forWord ++ Byte.space :: (var ++ (Directive.inMark ++ iterable)))).source

theorem Node.Spells.of_head {node : Node} {bytes : Bytes} (h : node.head.Spells bytes) :
    node.Spells bytes := by
  cases node with
  | text _ _ =>
      exact h
  | subst _ _ =>
      exact h
  | cond _ _ _ _ =>
      cases h
      exact Spells.cond
  | loop _ _ _ _ =>
      cases h
      exact Spells.loop

/-- Complete directives that make no node, one after the other. -/
inductive Silent : Bytes → Prop where
  | nil : Silent []
  | comment {note rest : Bytes} :
      Bytes.NoPair Byte.closeBrace (Byte.hash :: note ++ [Byte.closeBrace]) →
      Byte.newline ∉ note → Silent rest →
      Silent ((Fragment.directive (Byte.hash :: note)).source ++ rest)
  | continuation (word : Continuation) {rest : Bytes} :
      Silent rest → Silent ((Fragment.directive (Bytes.ofText word.word)).source ++ rest)

/-- From `offset` on, the nodes stand for one stretch of the source after the other. -/
inductive Tiles (source : Bytes) : Nat → List Node → Prop where
  | nil {offset : Nat} :
      offset ≤ source.length → Silent (source.slice offset source.length) →
      Tiles source offset []
  | cons {offset : Nat} {node : Node} {rest : List Node} :
      offset ≤ node.span.start → Silent (source.slice offset node.span.start) →
      node.span.start < node.span.stop → node.span.stop ≤ source.length →
      node.Spells (source.slice node.span.start node.span.stop) →
      Tiles source node.span.stop rest → Tiles source offset (node :: rest)

namespace Tiles

theorem offset_le {source : Bytes} {offset : Nat} {nodes : List Node}
    (h : Tiles source offset nodes) : offset ≤ source.length := by
  cases h with
  | nil hle _ =>
      exact hle
  | cons hstart _ hspan hstop _ _ =>
      omega

theorem of_silent {source : Bytes} {start stop : Nat} {nodes : List Node} (hle : start ≤ stop)
    (hsilent : ∀ rest, Silent rest → Silent (source.slice start stop ++ rest))
    (h : Tiles source stop nodes) : Tiles source start nodes := by
  cases h with
  | nil hstop hrest =>
      refine Tiles.nil (Nat.le_trans hle hstop) ?_
      rw [← Bytes.slice_append_slice source hle hstop]
      exact hsilent _ hrest
  | cons hstop hrest hspan hend hspells htiles =>
      refine Tiles.cons (Nat.le_trans hle hstop) ?_ hspan hend hspells htiles
      rw [← Bytes.slice_append_slice source hle hstop]
      exact hsilent _ hrest

theorem of_node {source : Bytes} {node : Node} {rest : List Node}
    (hspan : node.span.start < node.span.stop)
    (hspells : node.Spells (source.slice node.span.start node.span.stop))
    (h : Tiles source node.span.stop rest) : Tiles source node.span.start (node :: rest) := by
  refine Tiles.cons (Nat.le_refl _) ?_ hspan h.offset_le hspells h
  rw [Bytes.slice_self]
  exact Silent.nil

theorem of_map_head {source : Bytes} {offset : Nat} {nodes : List Node}
    (h : Tiles source offset (nodes.map Node.head)) : Tiles source offset nodes := by
  induction nodes generalizing offset with
  | nil =>
      exact h
  | cons node rest ih =>
      cases h with
      | cons hstart hsilent hspan hstop hspells htiles =>
          rw [Node.head_span] at hstart hsilent hspan hstop hspells htiles
          exact Tiles.cons hstart hsilent hspan hstop hspells.of_head (ih htiles)

theorem offset_le_start {source : Bytes} {offset : Nat} {nodes : List Node}
    (h : Tiles source offset nodes) {node : Node} (hnode : node ∈ nodes) :
    offset ≤ node.span.start := by
  induction h with
  | nil _ _ =>
      cases hnode
  | cons hstart _ hspan _ _ _ ih =>
      cases hnode with
      | head =>
          exact hstart
      | tail _ hrest =>
          exact Nat.le_trans hstart (Nat.le_trans (Nat.le_of_lt hspan) (ih hrest))

theorem pairwise_span_ne {source : Bytes} {offset : Nat} {nodes : List Node}
    (h : Tiles source offset nodes) :
    nodes.Pairwise fun first second => first.span ≠ second.span := by
  induction h with
  | nil _ _ =>
      exact List.Pairwise.nil
  | @cons offset node rest _ _ hspan _ _ htiles ih =>
      refine List.Pairwise.cons ?_ ih
      intro other hother hsame
      have hlater := htiles.offset_le_start hother
      rw [← hsame] at hlater
      exact absurd hspan (Nat.not_lt.mpr hlater)

end Tiles

/-!
# Compiled sources
-/

/-- The heads that a fragment leaves in the tree stand for it. -/
inductive Fragment.Leaves (fragment : Fragment) : Span → List Node → Prop where
  | nothing {span : Span} :
      (∀ rest, Silent rest → Silent (fragment.source ++ rest)) → Leaves fragment span []
  | node {node : Node} : node.Spells fragment.source → Leaves fragment node.span [node]

theorem Directive.Reads.leaves {content : Bytes} {d : Directive} (h : Reads content d)
    (hvalid : (Fragment.directive content).Valid) (span : Span) :
    (Fragment.directive content).Leaves span (d.heads span) := by
  cases h with
  | comment note =>
      rcases hvalid with ⟨hclose, _, hline⟩
      apply Fragment.Leaves.nothing
      intro rest hrest
      exact Silent.comment hclose (List.not_mem_of_not_mem_cons hline) hrest
  | word _ _ hspells =>
      cases hspells with
      | openCond _ _ =>
          exact Fragment.Leaves.node Node.Spells.cond
      | openLoop _ _ _ _ =>
          exact Fragment.Leaves.node Node.Spells.loop
      | otherwise =>
          exact Fragment.Leaves.nothing fun _ hrest => Silent.continuation .otherwise hrest
      | endCond =>
          exact Fragment.Leaves.nothing fun _ hrest => Silent.continuation .endCond hrest
      | endLoop =>
          exact Fragment.Leaves.nothing fun _ hrest => Silent.continuation .endLoop hrest
      | escape _ hbraces =>
          exact Fragment.Leaves.node (Node.Spells.escape hbraces)
      | subst _ _ _ =>
          exact Fragment.Leaves.node Node.Spells.subst

theorem Builder.exists_leaves_of_piece {fragment : Fragment} (hvalid : fragment.Valid)
    {span : Span} {b b' : Builder} (hstep : b.piece (fragment.toPiece span) = .ok b') :
    ∃ nodes, b'.heads = b.heads ++ nodes ∧ fragment.Leaves span nodes := by
  cases fragment with
  | text bytes =>
      cases hstep
      exact ⟨[.text bytes span], heads_add b _, Fragment.Leaves.node Node.Spells.text⟩
  | directive content =>
      rcases (piece_directive_eq_ok_iff hvalid.right.left span b b').mp hstep with
        ⟨d, hreads, hdirective⟩
      exact ⟨d.heads span, heads_directive hdirective, hreads.leaves hvalid span⟩

theorem Fragment.Valid.source_ne_nil {fragment : Fragment} (h : fragment.Valid) :
    fragment.source ≠ [] := by
  cases fragment with
  | text bytes =>
      exact h
  | directive content =>
      exact List.cons_ne_nil _ _

theorem Fragment.Leaves.tiles {source : Bytes} {fragment : Fragment} {span : Span}
    {nodes rest : List Node} (h : fragment.Leaves span nodes) (hvalid : fragment.Valid)
    (hspan : span.stop = span.start + fragment.source.length)
    (hslice : source.slice span.start span.stop = fragment.source)
    (hrest : Tiles source span.stop rest) : Tiles source span.start (nodes ++ rest) := by
  have hlength : 0 < fragment.source.length := List.length_pos_iff.mpr hvalid.source_ne_nil
  cases h with
  | nothing hsilent =>
      rw [← hslice] at hsilent
      exact Tiles.of_silent (by omega) hsilent hrest
  | node hspells =>
      rw [← hslice] at hspells
      exact Tiles.of_node (by omega) hspells hrest

/-- What the compiler reads from an offset on adds heads that tile the
source from there on. -/
theorem exists_tiles_of_foldlM {source before : Bytes} {fragments : List Fragment}
    (hvalid : ∀ fragment ∈ fragments, fragment.Valid)
    (hsource : source = before ++ fragments.flatMap Fragment.source) {line : Nat}
    {b b' : Builder}
    (hfold : (Fragment.place before.length line fragments).foldlM Builder.piece b = .ok b') :
    ∃ nodes, b'.heads = b.heads ++ nodes ∧ Tiles source before.length nodes := by
  -- `before` is what has been read, so that the offset of the next piece is its length.
  induction fragments generalizing before line b with
  | nil =>
      have hb : b = b' := Except.ok.inj hfold
      subst hb
      refine ⟨[], (List.append_nil _).symm, Tiles.nil ?_ ?_⟩
      · simp [hsource]
      · simp [hsource, Bytes.slice_self, Silent.nil]
  | cons fragment rest ih =>
      rw [List.forall_mem_cons] at hvalid
      rcases (foldlM_cons_eq_ok_iff _ _ b b').mp hfold with ⟨next, hstep, hfold⟩
      have hslice : source.slice before.length (before.length + fragment.source.length) =
          fragment.source := by
        rw [hsource, List.flatMap_cons, Bytes.slice_append]
      have hrest : source = (before ++ fragment.source) ++ rest.flatMap Fragment.source := by
        rw [hsource, List.flatMap_cons, List.append_assoc]
      rw [← List.length_append] at hfold
      rcases ih hvalid.right hrest hfold with ⟨back, hback, htiles⟩
      rcases Builder.exists_leaves_of_piece hvalid.left hstep with ⟨front, hfront, hleaves⟩
      refine ⟨front ++ back, ?_, ?_⟩
      · rw [hback, hfront, List.append_assoc]
      · rw [List.length_append] at htiles
        exact hleaves.tiles hvalid.left rfl hslice htiles

theorem tiles_heads_of_compile {source : Bytes} {t : Template}
    (h : Template.compile source = .ok t) :
    Tiles source 0 ((t.outline.map fun entry => entry.2.2).map Node.head) := by
  rcases (compile_eq_ok_iff source t).mp h with ⟨fragments, builder, hcuts, hfold, hstack, rfl⟩
  have hsource : source = [] ++ fragments.flatMap Fragment.source := hcuts.flatMap_source.symm
  rcases exists_tiles_of_foldlM hcuts.valid hsource hfold with ⟨nodes, hnodes, htiles⟩
  have hheads : nodes = Node.allHeads builder.root.toList := by
    rw [Builder.heads, hstack] at hnodes
    simpa [Builder.heads, Node.allHeads] using hnodes.symm
  rw [Template.outline, List.map_map]
  rw [hheads, ← Node.map_head_outlineAll 0 .root] at htiles
  exact htiles

/-- In document order the spans of a compiled template tile its source. -/
theorem compile_tiles {source : Bytes} {t : Template} (h : Template.compile source = .ok t) :
    Tiles source 0 (t.outline.map fun entry => entry.2.2) := by
  apply Tiles.of_map_head
  exact tiles_heads_of_compile h

/-- A block with text in its second branch, and with gaps in front of
the text and behind it. -/
theorem compile_tiles_else :
    Template.compile
        (Bytes.ofText "\x7b\x7bif b\x7d\x7d\x7b\x7belse\x7d\x7dc\x7b\x7bendif\x7d\x7d") =
          .ok ⟨[.cond [0x62] [] [.text [0x63] ⟨1, 16, 17⟩] ⟨1, 0, 8⟩]⟩ ∧
      Tiles (Bytes.ofText "\x7b\x7bif b\x7d\x7d\x7b\x7belse\x7d\x7dc\x7b\x7bendif\x7d\x7d")
        0 [.cond [0x62] [] [.text [0x63] ⟨1, 16, 17⟩] ⟨1, 0, 8⟩,
          .text [0x63] ⟨1, 16, 17⟩] := by
  have hcompile : Template.compile
      (Bytes.ofText "\x7b\x7bif b\x7d\x7d\x7b\x7belse\x7d\x7dc\x7b\x7bendif\x7d\x7d") =
        .ok ⟨[.cond [0x62] [] [.text [0x63] ⟨1, 16, 17⟩] ⟨1, 0, 8⟩]⟩ := by
    rfl
  exact ⟨hcompile, compile_tiles hcompile⟩

end Stencil
