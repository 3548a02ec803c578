import Stencil.Proofs.Template.Heads

/-!
# Variables of compiled loops

The variable of a loop in a compiled template is a single name: it is not empty, and no
byte of it is one that paths give a meaning to.
-/

namespace Stencil

def Node.BindsVariable : Node → Prop
  | .loop var _ _ _ => Directive.isVariable var = true
  | _ => True

theorem Node.bindsVariable_head (node : Node) : node.head.BindsVariable ↔
    node.BindsVariable := by
  cases node with
  | text _ _ =>
      rfl
  | subst _ _ =>
      rfl
  | cond _ _ _ _ =>
      rfl
  | loop _ _ _ _ =>
      rfl

theorem Directive.Reads.bindsVariable {content : Bytes} {d : Directive} (h : Reads content d)
    (span : Span) : ∀ node ∈ d.heads span, node.BindsVariable := by
  intro node hnode
  cases h with
  | comment note =>
      cases hnode
  | word _ _ hspells =>
      cases hspells with
      | openLoop hne hfree _ _ =>
          cases List.mem_singleton.mp hnode
          exact (isVariable_iff _).mpr ⟨hne, hfree⟩
      | openCond _ _ =>
          cases List.mem_singleton.mp hnode
          trivial
      | escape _ _ =>
          cases List.mem_singleton.mp hnode
          trivial
      | subst _ _ _ =>
          cases List.mem_singleton.mp hnode
          trivial
      | _ =>
          cases hnode

theorem Builder.bindsVariable_piece {fragment : Fragment} (hvalid : fragment.Valid)
    {span : Span} {b b' : Builder} (hstep : b.piece (fragment.toPiece span) = .ok b')
    (h : ∀ node ∈ b.heads, node.BindsVariable) : ∀ node ∈ b'.heads, node.BindsVariable := by
  cases fragment with
  | text bytes =>
      cases hstep
      rw [heads_add, List.forall_mem_append]
      constructor
      · exact h
      · intro node hnode
        cases List.mem_singleton.mp hnode
        trivial
  | directive content =>
      rcases (piece_directive_eq_ok_iff hvalid.right.left span b b').mp hstep with
        ⟨d, hreads, hdirective⟩
      rw [heads_directive hdirective, List.forall_mem_append]
      exact ⟨h, hreads.bindsVariable span⟩

theorem Builder.bindsVariable_foldlM {fragments : List Fragment}
    (hvalid : ∀ fragment ∈ fragments, fragment.Valid) {offset line : Nat} {b b' : Builder}
    (hfold : (Fragment.place offset line fragments).foldlM Builder.piece b = .ok b')
    (h : ∀ node ∈ b.heads, node.BindsVariable) : ∀ node ∈ b'.heads, node.BindsVariable := by
  induction fragments generalizing offset line b with
  | nil =>
      cases hfold
      exact h
  | cons fragment rest ih =>
      rw [List.forall_mem_cons] at hvalid
      rcases (foldlM_cons_eq_ok_iff _ _ b b').mp hfold with ⟨next, hstep, hrest⟩
      exact ih hvalid.right hrest (bindsVariable_piece hvalid.left hstep h)

theorem Template.isVariable_of_compile {source : Bytes} {t : Template}
    (hcompile : Template.compile source = .ok t) {depth : Nat} {branch : Node.Branch}
    {var : Bytes} {iterable : Path} {body : List Node} {span : Span}
    (hloop : (depth, branch, .loop var iterable body span) ∈ t.outline) :
    Directive.isVariable var = true := by
  rcases (compile_eq_ok_iff source t).mp hcompile with
    ⟨fragments, builder, hcuts, hfold, hstack, rfl⟩
  have hempty : ∀ node ∈ Builder.heads {}, node.BindsVariable := by
    intro node hnode
    cases hnode
  have hheads := Builder.bindsVariable_foldlM hcuts.valid hfold hempty
  have hmem : (Node.loop var iterable body span).head ∈ builder.heads := by
    rw [Builder.heads, hstack]
    simp only [List.reverse_nil, List.flatMap_nil, List.append_nil]
    rw [← Node.map_head_outlineAll 0 .root]
    exact List.mem_map_of_mem (f := fun entry => entry.2.2.head) hloop
  exact (Node.bindsVariable_head _).mp (hheads _ hmem)

end Stencil
