import Stencil.Proofs.Template.Spans

/-!
# Lines

Each node and each error of the compiler names a stretch of the source and the line on
which it begins.  The scanner counts lines in text only, which is enough since a directive
has to end on its own line.
-/

namespace Stencil

structure Span.Marks (span : Span) (source : Bytes) : Prop where
  ordered : span.start ≤ span.stop
  within : span.stop ≤ source.length
  line_eq : span.line = 1 + Bytes.countNewlines (source.take span.start)

theorem Span.Between.marks {source : Bytes} {span : Span} (h : span.Between source) :
    span.Marks source := by
  cases h with
  | @intro before middle behind hsource _ _ =>
      constructor
      · exact Nat.le_add_right _ _
      · rw [hsource, List.length_append, List.length_append, ← Nat.add_assoc]
        exact Nat.le_add_right _ _
      · rw [hsource, List.take_left']
        rfl

/-!
# Errors
-/

/-- A fault is noticed on the line of its directive, a block without an end
only on the last line. -/
inductive CompileError.Marks (source : Bytes) : CompileError → Prop where
  | inside {span : Span} {fault : CompileFault} :
      span.Marks source → fault.IsInside → Marks source (.inside span fault)
  | unclosed {kind : BlockKind} {span : Span} :
      span.Marks source →
      Marks source ⟨.unclosedBlock kind span.line, 1 + Bytes.countNewlines source, span⟩

theorem outline_marks_of_compile {source : Bytes} {t : Template}
    (h : Template.compile source = .ok t) :
    ∀ entry ∈ t.outline, entry.2.2.span.Marks source := by
  intro entry hentry
  exact (between_of_outline h entry hentry).marks

theorem error_marks_of_compile {source : Bytes} {e : CompileError}
    (h : Template.compile source = .error e) : e.Marks source := by
  rcases between_of_error h with ⟨span, fault, rfl, hspan, hfault⟩ | ⟨kind, span, hspan, rfl⟩
  · exact CompileError.Marks.inside hspan.marks hfault
  · exact CompileError.Marks.unclosed hspan.marks

theorem CompileError.Marks.span_marks {source : Bytes} {e : CompileError}
    (h : e.Marks source) :
    e.span.Marks source := by
  cases h with
  | inside hspan _ =>
      exact hspan
  | unclosed hspan =>
      exact hspan

/-!
# The theorem
-/

/-- The span of each node of a compiled source lies in the source and has the line of its
first byte, and so does the span of the error where the source does not compile.  The
error is noticed on that line, too, except that a block without an end is noticed on the
last line and names the line on which it begins. -/
theorem compile_lines_true (source : Bytes) :
    (∀ t, Template.compile source = .ok t →
      ∀ entry ∈ t.outline, entry.2.2.span.Marks source) ∧
    (∀ e, Template.compile source = .error e →
      e.span.Marks source ∧
      (∀ kind begun, e.fault = .unclosedBlock kind begun →
        e.line = 1 + Bytes.countNewlines source ∧ begun = e.span.line) ∧
      ((∀ kind begun, e.fault ≠ .unclosedBlock kind begun) → e.line = e.span.line)) := by
  constructor
  · intro t h
    exact outline_marks_of_compile h
  · intro e h
    have hmarks := error_marks_of_compile h
    refine ⟨hmarks.span_marks, ?_, ?_⟩
    · intro kind begun hfault
      cases hmarks with
      | inside _ hinside =>
          have hunclosed : CompileFault.IsInside (.unclosedBlock kind begun) :=
            hfault ▸ hinside
          cases hunclosed
      | unclosed _ =>
          cases hfault
          exact ⟨rfl, rfl⟩
    · intro hfault
      cases hmarks with
      | inside _ _ =>
          rfl
      | unclosed _ =>
          exact absurd rfl (hfault _ _)

/-- The block that begins on the second line has no end on the third. -/
theorem compile_lines_true_unclosed :
    Template.compile (Bytes.ofText "a\n\x7b\x7bif b\x7d\x7d\nc") =
        .error ⟨.unclosedBlock .cond 2, 3, ⟨2, 2, 10⟩⟩ ∧
      (⟨2, 2, 10⟩ : Span).Marks (Bytes.ofText "a\n\x7b\x7bif b\x7d\x7d\nc") ∧
      3 = 1 + Bytes.countNewlines (Bytes.ofText "a\n\x7b\x7bif b\x7d\x7d\nc") ∧
      ∃ t, Template.compile (Bytes.ofText "a\n\x7b\x7bx\x7d\x7d") = .ok t ∧
        ∀ entry ∈ t.outline, entry.2.2.span.Marks (Bytes.ofText "a\n\x7b\x7bx\x7d\x7d") := by
  have herror : Template.compile (Bytes.ofText "a\n\x7b\x7bif b\x7d\x7d\nc") =
      .error ⟨.unclosedBlock .cond 2, 3, ⟨2, 2, 10⟩⟩ := by
    rfl
  rcases (compile_lines_true _).right _ herror with ⟨hspan, hunclosed, _⟩
  exact ⟨herror, hspan, (hunclosed .cond 2 rfl).left, _, rfl,
    (compile_lines_true _).left _ rfl⟩

end Stencil
