import Stencil.Proofs.Path.Finder
import Stencil.Proofs.Path.Storer
import Stencil.Proofs.Render.Refinement
import Stencil.Proofs.Template.Scanner

/-!
# Offsets stay in range

Sources and paths are scanned by offsets, and display texts are cut out of a scratch
buffer.  No input makes any of these ask for a slice that is out of range, and every scan
moves on until it ends.
-/

namespace Stencil

variable {σ ε : Type}

namespace Rendering

def substitute? [Addressing] (sink : Sink σ ε) (v : Value) (span : Span)
    (progress : Progress σ) :
    Option (Except (RenderError ε) Unit × Progress σ) :=
  match v with
  | .string bytes => some ((emit sink bytes span).run progress)
  | v =>
    match (display v : Rendering σ ε Nat).run progress with
    | (.ok needed, after) =>
      (after.scratch.slice? 0 needed).map fun chunk => (emit sink chunk span).run after
    | (.error e, after) => some (.error e, after)

theorem exists_slice_display [Addressing] (v : Value) (progress : Progress σ) :
    ∃ scratch, (display v : Rendering σ ε Nat).run progress =
        (.ok v.display.length, ⟨progress.sink, scratch⟩) ∧
      scratch.slice? 0 v.display.length = some v.display ∧
      scratch.take v.display.length = v.display := by
  rcases exists_run_display (ε := ε) v progress with ⟨scratch, hrun, htext⟩
  have hroom : v.display.length ≤ scratch.length := by
    have hlength := congrArg List.length htext
    rw [List.length_take] at hlength
    omega
  exact ⟨scratch, hrun, by rw [Bytes.slice?_take hroom, htext], htext⟩

theorem substitute?_eq [Addressing] (sink : Sink σ ε) (v : Value) (span : Span)
    (progress : Progress σ) :
    substitute? sink v span progress = some ((substitute sink v span).run progress) := by
  have hdisplay : (match (display v : Rendering σ ε Nat).run progress with
      | (.ok needed, after) =>
        (after.scratch.slice? 0 needed).map fun chunk => (emit sink chunk span).run after
      | (.error e, after) => some (.error e, after)) =
        some ((do
          let needed ← display v
          let progress ← get
          emit sink (progress.scratch.take needed) span : Rendering σ ε Unit).run
            progress) := by
    rcases exists_slice_display (ε := ε) v progress with ⟨scratch, hrun, hslice, htext⟩
    rw [run_bind, hrun]
    simp only [hslice, Option.map_some, run_get_bind, htext]
  cases v with
  | string bytes =>
      rfl
  | none =>
      exact hdisplay
  | int n =>
      exact hdisplay
  | array items =>
      exact hdisplay
  | dict entries =>
      exact hdisplay

end Rendering

/-- No source, path, value or scratch buffer leads to a slice that is out of range.
Compiling scans its source and moves on with every step, looking up and storing move a
cursor along their path and never behind its end, and each comes to the result in the end;
the part of the scratch buffer that a substitution emits is there. -/
theorem scanning_stays_in_range [Addressing] (sink : Sink σ ε) :
    (∀ source : Bytes,
      (scanner source).RunsWithin source.length {} (Template.compile source) ∧
        ∀ s, (scanner source).Reaches {} s → s.textStart ≤ s.scan) ∧
    (∀ (ns : Dict Value) (path : Path),
      (finder path).RunsWithin path.length (.name 0 ns) (lookup ns path)) ∧
    (∀ (ns : Dict Value) (path : Path) (v : Value),
      (storer path v).RunsWithin path.length (.name 0 ns (Storer.root ns))
        (assign ns path v)) ∧
    ∀ (v : Value) (span : Span) (progress : Progress σ),
      Rendering.substitute? sink v span progress =
        some ((Rendering.substitute sink v span).run progress) := by
  refine ⟨?_, Finder.runsWithin, Storer.runsWithin, Rendering.substitute?_eq sink⟩
  intro source
  exact ⟨Scanner.runsWithin source, fun s h => Scanner.textStart_le_of_reaches h⟩

end Stencil
