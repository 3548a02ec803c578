import Stencil.Diagnostic
import Stencil.Proofs.Render.Fault
import Stencil.Proofs.Template.Spans
import Stencil.Standard

/-!
# Where diagnostics point

A diagnostic counts the characters of the decoded source up to the ends of a span.  That
these are the characters of the span needs its ends to be seams, since bytes that are no
text may otherwise count for other characters together than they do apart.
-/

namespace Stencil

namespace Diagnostic

/-- The characters counted for a span are there, and they are what the bytes
of the span decode to. -/
structure PointsAt (source : Bytes) (span : Span) : Prop where
  ordered : (charRange source span).1 ≤ (charRange source span).2
  within : (charRange source span).2 ≤ (Utf8.lossy source).length
  chars :
    ((Utf8.lossy source).drop (charRange source span).1).take
        ((charRange source span).2 - (charRange source span).1) =
      Utf8.lossy (source.slice span.start span.stop)

end Diagnostic

theorem Span.Between.pointsAt {source : Bytes} {span : Span} (h : span.Between source) :
    Diagnostic.PointsAt source span := by
  cases h with
  | @intro before middle behind hsource hstart hstop =>
      generalize 1 + Bytes.countNewlines before = line
      have hdecoded := Utf8.lossy_append_append hstart hstop
      have hbefore : source.take before.length = before := by
        rw [hsource, List.take_left']
        rfl
      have hmiddle : source.take (before.length + middle.length) = before ++ middle := by
        rw [hsource, ← List.append_assoc, ← List.length_append, List.take_left']
        rfl
      have hslice : source.slice before.length (before.length + middle.length) = middle := by
        rw [hsource, Bytes.slice_append]
      have hrange : Diagnostic.charRange source ⟨line, before.length,
          before.length + middle.length⟩ =
          ((Utf8.lossy before).length,
            (Utf8.lossy before).length + (Utf8.lossy middle).length) := by
        rw [Diagnostic.charRange, hbefore, hmiddle, hstart.of_append.lossy_append,
          List.length_append]
      rw [← hsource] at hdecoded
      constructor
      · rw [hrange]
        exact Nat.le_add_right _ _
      · rw [hrange, hdecoded, List.length_append, List.length_append, ← Nat.add_assoc]
        exact Nat.le_add_right _ _
      · rw [hrange, hslice, hdecoded, Nat.add_sub_cancel_left, List.drop_left',
          List.take_left']
        · rfl
        · rfl

theorem RenderError.span_between [Addressing] {σ ε : Type} {source : Bytes} {t : Template}
    (hcompile : Template.compile source = .ok t) {sink : Sink σ ε} {state final : σ}
    {ns : Dict Value} {e : RenderError ε} (h : t.renderTo sink state ns = (final, .error e)) :
    e.span.Between source := by
  rcases Template.exists_does_of_error h with ⟨_, _, _, hdoes, _, _⟩
  rcases Script.Does.traces_ofNodes t.nodes hdoes with ⟨node, frame, hreaches, hspan, _⟩
  rcases hreaches.exists_mem_outline 0 .root with ⟨place, position, hmem⟩
  rw [← hspan]
  exact between_of_outline hcompile _ hmem

/-!
# The theorem
-/

/-- For an error of compiling any source, and for one of rendering what it compiles to,
the characters that a diagnostic points at are those of the span of the error. -/
theorem diagnostic_points_at_span [Addressing] (source : Bytes) :
    (∀ e, Template.compile source = .error e → Diagnostic.PointsAt source e.span) ∧
      (∀ t, Template.compile source = .ok t →
        ∀ (σ ε : Type) (sink : Sink σ ε) (state final : σ) (ns : Dict Value)
        (e : RenderError ε),
          t.renderTo sink state ns = (final, .error e) →
            Diagnostic.PointsAt source e.span) := by
  constructor
  · intro e h
    exact (CompileError.span_between h).pointsAt
  · intro t hcompile σ ε sink state final ns e h
    exact (RenderError.span_between hcompile h).pointsAt

/-- Two bytes that begin a character count for one, although an opening brace and
no third byte follows. -/
theorem diagnostic_points_at_span_behind_invalid_bytes :
    ∃ t final e,
      Template.compile ([0xE2, 0x82] ++ Bytes.ofText "\x7b\x7bx\x7d\x7d") = .ok t ∧
      t.renderTo Recorder.sink {} .empty = (final, .error e) ∧
      Diagnostic.charRange ([0xE2, 0x82] ++ Bytes.ofText "\x7b\x7bx\x7d\x7d") e.span = (1, 6) ∧
      Diagnostic.PointsAt ([0xE2, 0x82] ++ Bytes.ofText "\x7b\x7bx\x7d\x7d") e.span := by
  refine ⟨_, _, _, rfl, rfl, rfl, ?_⟩
  exact (diagnostic_points_at_span _).right _ rfl _ _ Recorder.sink {} _ .empty _ rfl

end Stencil
