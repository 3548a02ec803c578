import Stencil.Proofs.Render.Refinement
import Stencil.Proofs.Render.Scope
import Stencil.Proofs.Render.Sink

/-!
# Delivering to a sink

What is rendered does not depend on where it goes: a template has one script for its data,
and a sink decides no more than how much of it is delivered.
-/

namespace Stencil

variable {σ ε : Type}

namespace Sink

/-!
# Feeding
-/

theorem Accepts.feed {sink : Sink σ ε} {state final : σ} {chunks : List (Bytes × Span)}
    (h : sink.Accepts state (chunks.map Prod.fst) final) :
    sink.feed state chunks = (final, .ok ()) := by
  induction chunks generalizing state with
  | nil =>
      cases h
      rfl
  | cons entry rest ih =>
      cases h with
      | cons hoffer hrest =>
          rw [Sink.feed, hoffer]
          exact ih hrest

theorem Accepts.feed_refused {sink : Sink σ ε} {state mid final : σ}
    {front : List (Bytes × Span)} (hfront : sink.Accepts state (front.map Prod.fst) mid)
    {chunk : Bytes} {refusal : ε} (hrefuse : sink.offer mid chunk = (final, .error refusal))
    (span : Span) (back : List (Bytes × Span)) :
    sink.feed state (front ++ (chunk, span) :: back) =
      (final, .error ⟨.write refusal, span⟩) := by
  rw [Script.feed_append, hfront.feed]
  simp only
  rw [Sink.feed, hrefuse]

theorem accepts_or_refuses (sink : Sink σ ε) (state : σ) (chunks : List (Bytes × Span)) :
    (∃ final, sink.Accepts state (chunks.map Prod.fst) final) ∨
      ∃ front chunk span back mid final refusal, chunks = front ++ (chunk, span) :: back ∧
        sink.Accepts state (front.map Prod.fst) mid ∧
        sink.offer mid chunk = (final, .error refusal) := by
  induction chunks generalizing state with
  | nil =>
      exact Or.inl ⟨state, Accepts.nil state⟩
  | cons entry rest ih =>
      rcases entry with ⟨bytes, place⟩
      rcases hoffer : sink.offer state bytes with ⟨next, refusal | _⟩
      · exact Or.inr ⟨[], bytes, place, rest, state, next, refusal, rfl,
          Accepts.nil state, hoffer⟩
      · rcases ih next with ⟨final, haccepts⟩ |
          ⟨front, chunk, span, back, mid, final, refusal, rfl, haccepts, hrefuse⟩
        · exact Or.inl ⟨final, Accepts.cons hoffer haccepts⟩
        · exact Or.inr ⟨(bytes, place) :: front, chunk, span, back, mid, final, refusal, rfl,
            Accepts.cons hoffer haccepts, hrefuse⟩

end Sink

def Script.outcome (script : Script) : Except (RenderError ε) Unit :=
  script.ending.mapError fun e => ⟨e.1.toRenderFault, e.2⟩

namespace Template

def script [Addressing] (t : Template) (ns : Dict Value) : Script :=
  Script.ofNodes ns t.nodes .empty

theorem renderTo_eq_play [Addressing] (sink : Sink σ ε) (state : σ) (t : Template)
    (ns : Dict Value) :
    t.renderTo sink state ns = (t.script ns).play sink state :=
  t.renderWith_eq_play sink state ns .empty

theorem renderTo_of_accepts [Addressing] {sink : Sink σ ε} {state final : σ} {t : Template}
    {ns : Dict Value} (h : sink.Accepts state ((t.script ns).chunks.map Prod.fst) final) :
    t.renderTo sink state ns = (final, (t.script ns).outcome) := by
  rw [renderTo_eq_play, Script.play, h.feed]
  rfl

theorem renderTo_of_refused [Addressing] {sink : Sink σ ε} {state mid final : σ} {t : Template}
    {ns : Dict Value} {front back : List (Bytes × Span)} {chunk : Bytes} {span : Span}
    {refusal : ε} (hchunks : (t.script ns).chunks = front ++ (chunk, span) :: back)
    (hfront : sink.Accepts state (front.map Prod.fst) mid)
    (hrefuse : sink.offer mid chunk = (final, .error refusal)) :
    t.renderTo sink state ns = (final, .error ⟨.write refusal, span⟩) := by
  rw [renderTo_eq_play, Script.play, hchunks, hfront.feed_refused hrefuse span back]

theorem renderTo_cases [Addressing] (sink : Sink σ ε) (state : σ) (t : Template)
    (ns : Dict Value) :
    (∃ final, sink.Accepts state ((t.script ns).chunks.map Prod.fst) final ∧
      t.renderTo sink state ns = (final, (t.script ns).outcome)) ∨
      ∃ front chunk span back mid final refusal,
        (t.script ns).chunks = front ++ (chunk, span) :: back ∧
        sink.Accepts state (front.map Prod.fst) mid ∧
        sink.offer mid chunk = (final, .error refusal) ∧
        t.renderTo sink state ns = (final, .error ⟨.write refusal, span⟩) := by
  rcases sink.accepts_or_refuses state (t.script ns).chunks with ⟨final, haccepts⟩ |
    ⟨front, chunk, span, back, mid, final, refusal, hchunks, haccepts, hrefuse⟩
  · exact Or.inl ⟨final, haccepts, renderTo_of_accepts haccepts⟩
  · exact Or.inr ⟨front, chunk, span, back, mid, final, refusal, hchunks, haccepts, hrefuse,
      renderTo_of_refused hchunks haccepts hrefuse⟩

end Template

/-!
# The theorem
-/

/-- A template has one script for its data.  A sink that accepts all its chunks is offered
exactly these, and the rendering ends as the script does; a sink that refuses one of them
is offered nothing behind it, and the rendering ends with the refusal, at the span of the
node that the chunk is from.  So a buffer below its limit, a stream with room and a
recorder all get the same output and outcome. -/
theorem rendering_independent_of_sink [Addressing] (t : Template) (ns : Dict Value) :
    (∀ chunk span, (chunk, span) ∈ (t.script ns).chunks →
      Originates ns t.nodes .empty chunk span) ∧
    (∀ {σ ε : Type} (sink : Sink σ ε) (state final : σ),
      sink.Accepts state ((t.script ns).chunks.map Prod.fst) final →
        t.renderTo sink state ns = (final, (t.script ns).outcome) ∧
        t.renderTo sink.watched (state, []) ns =
          ((final, (t.script ns).chunks.map Prod.fst), (t.script ns).outcome)) ∧
    (∀ {σ ε : Type} (sink : Sink σ ε) (state mid final : σ) (front back : List (Bytes × Span))
        (chunk : Bytes) (span : Span) (refusal : ε),
      (t.script ns).chunks = front ++ (chunk, span) :: back →
      sink.Accepts state (front.map Prod.fst) mid →
      sink.offer mid chunk = (final, .error refusal) →
        t.renderTo sink state ns = (final, .error ⟨.write refusal, span⟩) ∧
        t.renderTo sink.watched (state, []) ns =
          ((final, front.map Prod.fst ++ [chunk]), .error ⟨.write refusal, span⟩)) ∧
    (((t.script ns).chunks.map Prod.fst).flatten.length < ({} : OutputBuffer).limit →
      t.render ns = (t.script ns).outcome.map fun _ =>
        ((t.script ns).chunks.map Prod.fst).flatten) ∧
    (∀ stream : Stream, stream.Fits ((t.script ns).chunks.map Prod.fst).flatten →
      ∃ final, t.renderTo Stream.sink stream ns = (final, (t.script ns).outcome) ∧
        final.taken = stream.taken ++ ((t.script ns).chunks.map Prod.fst).flatten) ∧
    (∀ recorder : Recorder, recorder.patience = none →
      ∃ final, t.renderTo Recorder.sink recorder ns = (final, (t.script ns).outcome) ∧
        final.accepted = recorder.accepted ++ (t.script ns).chunks.map Prod.fst) := by
  refine ⟨?_, ?_, ?_, ?_, ?_, ?_⟩
  · intro chunk span h
    exact Script.originates_ofNodes t.nodes Enters.root (fun _ hnode => hnode) chunk span h
  · intro σ ε sink state final haccepts
    have hwatched := haccepts.watched []
    exact ⟨Template.renderTo_of_accepts haccepts, Template.renderTo_of_accepts hwatched⟩
  · intro σ ε sink state mid final front back chunk span refusal hchunks hfront hrefuse
    have hwatched := hfront.watched []
    have hoffer := Sink.watched_offer hrefuse (front.map Prod.fst)
    exact ⟨Template.renderTo_of_refused hchunks hfront hrefuse,
      Template.renderTo_of_refused hchunks hwatched hoffer⟩
  · intro hroom
    have hfits : OutputBuffer.Fits {} ((t.script ns).chunks.map Prod.fst) := by
      have hempty : ({} : OutputBuffer).content = [] := rfl
      rw [OutputBuffer.Fits, hempty, List.length_nil, Nat.zero_add]
      exact hroom
    rcases hfits.exists_accepts with ⟨final, haccepts, hcontent⟩
    rw [Template.render, Template.renderTo_of_accepts haccepts]
    cases (t.script ns).outcome with
    | ok done =>
        exact congrArg Except.ok hcontent
    | error e =>
        rfl
  · intro stream hfits
    rcases hfits.exists_accepts with ⟨final, haccepts, htaken⟩
    exact ⟨final, Template.renderTo_of_accepts haccepts, htaken⟩
  · intro recorder hpatient
    rcases Recorder.exists_accepts hpatient ((t.script ns).chunks.map Prod.fst) with
      ⟨final, haccepts, haccepted⟩
    exact ⟨final, Template.renderTo_of_accepts haccepts, haccepted⟩

end Stencil
