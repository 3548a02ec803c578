import Stencil.Proofs.Render.Delivery
import Stencil.Proofs.Template.Tiling
import Stencil.Standard

/-!
# What a render error says

Rendering stops at the node that its error is about.  It has come to that node with a
frame and has had all chunks before it accepted; there, the lookup, the iteration or the
chunk that the error is about failed as the error says.  No other node of a compiled
template has the span of the error.
-/

namespace Stencil

variable {σ ε : Type}

inductive Node.Fails [Addressing] (ns frame : Dict Value) (sink : Sink σ ε) (state : σ)
    (node : Node) :
    σ → RenderFault ε → Prop where
  | broken {fault : ScriptFault} :
      node.Breaks ns frame fault → Fails ns frame sink state node state fault.toRenderFault
  | refused {chunk : Bytes} {final : σ} {refusal : ε} :
      node.Offers ns frame chunk → sink.offer state chunk = (final, .error refusal) →
      Fails ns frame sink state node final (.write refusal)

/-!
# From errors to events
-/

/-- An error of a rendering stands for an event of the script, and the sink has accepted
all chunks before. -/
theorem Template.exists_does_of_error [Addressing] {t : Template} {ns : Dict Value}
    {sink : Sink σ ε} {state final : σ} {e : RenderError ε}
    (h : t.renderTo sink state ns = (final, .error e)) :
    ∃ before mid event, (t.script ns).Does before e.span event ∧
      sink.Accepts state (before.map Prod.fst) mid ∧
      ∀ frame (node : Node), node.Causes ns frame event →
        node.Fails ns frame sink mid final e.fault := by
  rcases t.renderTo_cases sink state ns with ⟨mid, haccepts, hrender⟩ |
    ⟨front, chunk, span, back, mid, last, refusal, hchunks, haccepts, hrefuse, hrender⟩
  · rw [hrender, Prod.mk.injEq] at h
    rcases h with ⟨rfl, houtcome⟩
    rcases (mapError_eq_error_iff _ _ _).mp houtcome with ⟨⟨fault, span⟩, hending, rfl⟩
    refine ⟨_, mid, .stops fault, ⟨rfl, hending⟩, haccepts, ?_⟩
    intro frame node hbreaks
    exact Node.Fails.broken hbreaks
  · rw [hrender] at h
    cases h
    refine ⟨front, mid, .offers chunk, ⟨back, hchunks⟩, haccepts, ?_⟩
    intro frame node hoffers
    exact Node.Fails.refused hoffers hrefuse

/-!
# The node in the tree
-/

theorem Reaches.exists_mem_outline [Addressing] {ns frame inner : Dict Value}
    {nodes : List Node} {before : List (Bytes × Span)} {node : Node}
    (h : Reaches ns nodes frame before node inner) (depth : Nat) (branch : Node.Branch) :
    ∃ place position, (place, position, node) ∈ Node.outlineAll depth branch nodes := by
  induction h generalizing depth branch with
  | @here node rest frame =>
      refine ⟨depth, branch, ?_⟩
      rw [Node.outlineAll]
      cases node with
      | text bytes span =>
          exact List.mem_cons_self
      | subst path span =>
          exact List.mem_cons_self
      | cond condition thenBranch elseBranch span =>
          exact List.mem_cons_self
      | loop var iterable body span =>
          exact List.mem_cons_self
  | later _ _ ih =>
      rcases ih depth branch with ⟨place, position, hmem⟩
      exact ⟨place, position, List.mem_append_right _ hmem⟩
  | thenBranch _ _ _ ih =>
      rcases ih (depth + 1) .thenBranch with ⟨place, position, hmem⟩
      exact ⟨place, position,
        List.mem_append_left _ (List.mem_cons_of_mem _ (List.mem_append_left _ hmem))⟩
  | elseBranch _ _ _ ih =>
      rcases ih (depth + 1) .elseBranch with ⟨place, position, hmem⟩
      exact ⟨place, position,
        List.mem_append_left _ (List.mem_cons_of_mem _ (List.mem_append_right _ hmem))⟩
  | pass _ _ _ _ _ ih =>
      rcases ih (depth + 1) .body with ⟨place, position, hmem⟩
      exact ⟨place, position, List.mem_append_left _ (List.mem_cons_of_mem _ hmem)⟩

theorem Template.exists_unique_span {source : Bytes} {t : Template}
    (hcompile : Template.compile source = .ok t) {entry : Nat × Node.Branch × Node}
    (hentry : entry ∈ t.outline) :
    ∃ front back, t.outline = front ++ entry :: back ∧
      ∀ other ∈ front ++ back, other.2.2.span ≠ entry.2.2.span := by
  have hpairwise := (tiles_heads_of_compile hcompile).of_map_head.pairwise_span_ne
  rw [List.pairwise_map] at hpairwise
  rcases List.mem_iff_append.mp hentry with ⟨front, back, houtline⟩
  rw [houtline, List.pairwise_append, List.pairwise_cons] at hpairwise
  rcases hpairwise with ⟨_, ⟨hback, _⟩, hfront⟩
  refine ⟨front, back, houtline, ?_⟩
  intro other hother
  rcases List.mem_append.mp hother with hbefore | hbehind
  · exact hfront other hbefore entry List.mem_cons_self
  · exact (hback other hbehind).symm

/-!
# The theorem
-/

/-- An error of rendering a compiled template is about the one node of the tree that has
the error's span.  Rendering has come to this node with a frame, the sink has accepted
all chunks before, and what the error reports is what happened there: a lookup for the
node's own directive failed in the frame and failed in the namespace as reported; the
iterable of a loop has a value, but no container; or the sink refused the chunk of a text
or of a substitution. -/
theorem render_error_truthful [Addressing] {source : Bytes} {t : Template}
    (hcompile : Template.compile source = .ok t) (ns : Dict Value) (sink : Sink σ ε)
    {state final : σ} {e : RenderError ε} (h : t.renderTo sink state ns = (final, .error e)) :
    ∃ front entry back, t.outline = front ++ entry :: back ∧
      (∀ other ∈ front ++ back, other.2.2.span ≠ e.span) ∧
      entry.2.2.span = e.span ∧ e.line = entry.2.2.span.line ∧
      ∃ before frame mid, Reaches ns t.nodes .empty before entry.2.2 frame ∧
        sink.Accepts state (before.map Prod.fst) mid ∧
        entry.2.2.Fails ns frame sink mid final e.fault := by
  rcases Template.exists_does_of_error h with ⟨before, mid, event, hdoes, haccepts, hfails⟩
  rcases Script.Does.traces_ofNodes t.nodes hdoes with ⟨node, frame, hreaches, hspan, hcauses⟩
  rcases hreaches.exists_mem_outline 0 .root with ⟨place, position, hmem⟩
  rcases Template.exists_unique_span hcompile hmem with ⟨front, back, houtline, hunique⟩
  rw [hspan] at hunique
  refine ⟨front, (place, position, node), back, houtline, hunique, hspan, ?_, ?_⟩
  · rw [RenderError.line, hspan]
  · exact ⟨before, frame, mid, hreaches, haccepts, hfails frame node hcauses⟩

/-- A loop whose body looks for what the loop variable does not have. -/
def strayMember : Template where
  nodes := [.loop [0x78] [0x76] [.subst (Bytes.ofText "x.w") ⟨1, 14, 21⟩] ⟨1, 0, 14⟩]

/-- The frame misses the member of the loop variable, and the namespace has no dictionary
under that name: the error is the one of the namespace. -/
theorem render_error_truthful_stray_member :
    Template.compile
        (Bytes.ofText "\x7b\x7bfor x in v\x7d\x7d\x7b\x7bx.w\x7d\x7d\x7b\x7bendfor\x7d\x7d") =
          .ok strayMember ∧
      strayMember.renderTo Recorder.sink {} ⟨[([0x76], .array [.int 5]), ([0x78], .int 9)]⟩ =
        ({}, .error ⟨.lookup .substitution ⟨.notADict .reading [0x78], 2, [0x78, 0x2e]⟩,
          ⟨1, 14, 21⟩⟩) ∧
      ∃ node before frame mid, node.span = ⟨1, 14, 21⟩ ∧
        Reaches ⟨[([0x76], .array [.int 5]), ([0x78], .int 9)]⟩ strayMember.nodes
          .empty before node
          frame ∧
        node.Fails ⟨[([0x76], .array [.int 5]), ([0x78], .int 9)]⟩ frame Recorder.sink mid {}
          (.lookup .substitution ⟨.notADict .reading [0x78], 2, [0x78, 0x2e]⟩) := by
  have hcompile : Template.compile
      (Bytes.ofText "\x7b\x7bfor x in v\x7d\x7d\x7b\x7bx.w\x7d\x7d\x7b\x7bendfor\x7d\x7d") =
        .ok strayMember := by
    rfl
  have hrender : strayMember.renderTo Recorder.sink {}
      ⟨[([0x76], .array [.int 5]), ([0x78], .int 9)]⟩ =
        ({}, .error ⟨.lookup .substitution ⟨.notADict .reading [0x78], 2, [0x78, 0x2e]⟩,
          ⟨1, 14, 21⟩⟩) := by
    rfl
  rcases render_error_truthful hcompile _ _ hrender with
    ⟨_, entry, _, _, _, hspan, _, before, frame, mid, hreaches, _, hfails⟩
  exact ⟨hcompile, hrender, entry.2.2, before, frame, mid, hspan, hreaches, hfails⟩

end Stencil
