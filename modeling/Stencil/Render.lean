import Stencil.Path.Lookup
import Stencil.Render.Error
import Stencil.Render.Sink
import Stencil.Value.Display
import Stencil.Value.Entries

/-!
# Rendering

A template is rendered against a namespace and a frame of loop variables, which
is searched first.  The output is offered to a sink chunk by chunk; rendering
stops at the first error.

All substitutions of a rendering share one scratch buffer for display texts, and all
passes of a loop share one frame, in which only the loop variable changes.
-/

namespace Stencil

structure Progress (σ : Type) where
  sink : σ
  scratch : Bytes

/-- A part of a rendering, whose progress outlives a failure. -/
abbrev Rendering (σ ε α : Type) := ExceptT (RenderError ε) (StateM (Progress σ)) α

namespace Rendering

variable {σ ε : Type} [Addressing]

def fail {α : Type} (fault : RenderFault ε) (span : Span) : Rendering σ ε α :=
  throw ⟨fault, span⟩

def emit (sink : Sink σ ε) (chunk : Bytes) (span : Span) : Rendering σ ε Unit := do
  let progress ← get
  let (state, outcome) := sink.offer progress.sink chunk
  set { progress with sink := state }
  match outcome with
  | .ok () => pure ()
  | .error refusal => fail (.write refusal) span

/-- The value of a path in the frame or else in the namespace, whose error counts. -/
def fetch (ns frame : Dict Value) (path : Path) (purpose : Lookup) (span : Span) :
    Rendering σ ε Value :=
  match lookup frame path with
  | .ok v => pure v
  | .error _ =>
    match lookup ns path with
    | .ok v => pure v
    | .error e => fail (.lookup purpose e) span

/-- Writes the display text of a value into the scratch buffer, which grows when the text
does not fit, and returns the length of the text. -/
def display (v : Value) : Rendering σ ε Nat := do
  let progress ← get
  let window := v.renderInto progress.scratch
  if window.size < window.total then
    let grown := window.buffer ++ List.replicate (window.total - window.size) 0
    let again := v.renderInto grown
    set { progress with scratch := again.buffer }
  else
    set { progress with scratch := window.buffer }
  pure window.total

/-- The bytes of a string as they are, and the display text of any other value. -/
def substitute (sink : Sink σ ε) (v : Value) (span : Span) : Rendering σ ε Unit :=
  match v with
  | .string bytes => emit sink bytes span
  | v => do
    let needed ← display v
    let progress ← get
    emit sink (progress.scratch.take needed) span

def keyName : Bytes := Bytes.ofText "key"

def valueName : Bytes := Bytes.ofText "value"

/-- Runs `body` once per entry, with the entry's key and value in the
frame's variable `var`. -/
def forEach (body : Dict Value → Rendering σ ε Unit) (var : Bytes) (span : Span) :
    Dict Value → List (Key × Value) → Rendering σ ε Unit
  | _, [] => pure ()
  | frame, (key, v) :: rest =>
    match frame.get? var with
    | some (.dict binding) => do
      let bound := (binding.replace keyName key.toValue).replace valueName v
      let frame := frame.update var (.dict bound)
      body frame
      forEach body var span frame rest
    | _ => fail .loopVariableMissing span

mutual

def node (sink : Sink σ ε) (ns : Dict Value) : Node → Dict Value → Rendering σ ε Unit
  | .text bytes span, _ => emit sink bytes span
  | .subst path span, frame => do
    let v ← fetch ns frame path .substitution span
    substitute sink v span
  | .cond condition thenBranch elseBranch span, frame => do
    let v ← fetch ns frame condition .condition span
    if v.isTruthy then nodes sink ns thenBranch frame else nodes sink ns elseBranch frame
  | .loop var iterable body span, frame => do
    let v ← fetch ns frame iterable .iterable span
    match v.entries with
    | .ok entries =>
      forEach (fun frame => nodes sink ns body frame) var span
        (frame.replace var (.dict .empty)) entries
    | .error _ => fail (.notIterable iterable) span

def nodes (sink : Sink σ ε) (ns : Dict Value) : List Node → Dict Value → Rendering σ ε Unit
  | [], _ => pure ()
  | n :: rest, frame => do
    node sink ns n frame
    nodes sink ns rest frame

end

def scratchSize : Nat := 256

end Rendering

/-!
# Whole templates
-/

namespace Template

variable {σ ε : Type} [Addressing]

/-- Renders with `frame` as the loop variables at the outset; the sink's state
comes back in any case. -/
def renderWith (sink : Sink σ ε) (state : σ) (t : Template) (ns frame : Dict Value) :
    σ × Except (RenderError ε) Unit :=
  let (outcome, progress) :=
    (Rendering.nodes sink ns t.nodes frame).run ⟨state, List.replicate Rendering.scratchSize 0⟩
  (progress.sink, outcome)

def renderTo (sink : Sink σ ε) (state : σ) (t : Template) (ns : Dict Value) :
    σ × Except (RenderError ε) Unit :=
  t.renderWith sink state ns .empty

def render (t : Template) (ns : Dict Value) : Except (RenderError Refusal) Bytes :=
  match t.renderTo OutputBuffer.sink {} ns with
  | (buffer, .ok ()) => .ok buffer.content
  | (_, .error e) => .error e

def renderText (t : Template) (ns : Dict Value) : Except (RenderError Refusal) String :=
  (t.render ns).map Utf8.lossyText

end Template
end Stencil
