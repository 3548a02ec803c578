import Stencil.Proofs.Template.Completeness
import Stencil.Proofs.Template.Soundness

/-!
# Compiling is deriving

Compiling accepts a source exactly when its fragments derive from the grammar, and builds
the tree of the derivation.
-/

namespace Stencil

/-- A source compiles to a tree of a shape exactly when the grammar derives that shape
from it; in particular it compiles exactly when the grammar derives anything from it. -/
theorem compile_shape_iff_generates (bytes : Bytes) (trees : List Tree) :
    (∃ t, Template.compile bytes = .ok t ∧ t.shape = trees) ↔ Generates bytes trees := by
  constructor
  · rintro ⟨t, hcompile, rfl⟩
    rcases (compile_eq_ok_iff bytes t).mp hcompile with
      ⟨fragments, builder, hcuts, hfold, hstack, rfl⟩
    have hcompletes := Builder.Completes.of_foldlM hcuts.valid hfold hstack
    refine ⟨fragments, hcuts, ?_⟩
    generalize hstart : ({} : Builder) = start at hcompletes
    generalize htrees : Node.shapes builder.root.toList = trees at hcompletes
    cases hcompletes with
    | root hderives =>
        cases hstart
        rw [Template.shape, htrees]
        exact hderives
    | block _ _ =>
        cases hstart
  · rintro ⟨fragments, hcuts, hderives⟩
    rcases hderives.builds 0 1 {} with ⟨nodes, hnodes, hfold⟩
    refine ⟨⟨nodes⟩, ?_, hnodes⟩
    rw [compile_eq_ok_iff]
    refine ⟨fragments, _, hcuts, hfold, rfl, ?_⟩
    simp [Builder.addAll]

end Stencil
