import Stencil.CommandLine.Directory
import Stencil.Dict.Lemmas
import Stencil.Main
import Stencil.Proofs.Path.PointUpdate
import Stencil.Proofs.Render.Refinement
import Stencil.Proofs.Template.Acceptance
import Stencil.Proofs.Template.Tiling
import Stencil.Workspace
import Stencil.Proofs.Path.Container
import Stencil.Proofs.Path.Faults
import Stencil.Proofs.Path.Failure
import Stencil.Proofs.Path.Success
import Stencil.Proofs.Path.Residue
import Stencil.Proofs.Path.Extension
import Stencil.Proofs.Render.Scope
import Stencil.Proofs.Render.Delivery
import Stencil.Proofs.Render.LoopVariable
import Stencil.Proofs.Render.Composition
import Stencil.Proofs.Value.Collection
import Stencil.Proofs.Path.Commutation
import Stencil.Proofs.Render.Renaming
import Stencil.Proofs.CommandLine.Defines
import Stencil.Proofs.CommandLine.Directory
import Stencil.Proofs.CommandLine.Run
import Stencil.Proofs.Render.Quotation
import Stencil.Proofs.Render.Dependence
import Stencil.Proofs.Bytes.Decimal
import Stencil.Proofs.Path.Spelling
import Stencil.Proofs.Value.WellFormed
import Stencil.Proofs.Value.Construction
import Stencil.Proofs.Value.Iteration
import Stencil.Proofs.Value.Refusal
import Stencil.Proofs.Bytes.Boundary
import Stencil.Proofs.Path.Segments
import Stencil.Proofs.Path.Stopping
import Stencil.Proofs.Path.FirstFault
import Stencil.Proofs.Path.Agreement
import Stencil.Proofs.Path.Overwriting
import Stencil.Proofs.Template.Lines
import Stencil.Proofs.Template.Finality
import Stencil.Proofs.Render.Fault
import Stencil.Proofs.Render.Capacity
import Stencil.Proofs.Value.History
import Stencil.Proofs.Value.Conservation
import Stencil.Proofs.Document.Correspondence
import Stencil.Proofs.CommandLine.Data
import Stencil.Proofs.Diagnostic.Range
import Stencil.Proofs.Value.Rearrangement
import Stencil.Proofs.CommandLine.KeyBound
import Stencil.Proofs.Value.Escape
import Stencil.Proofs.Bounds
import Stencil.Proofs.Value.Truncation
