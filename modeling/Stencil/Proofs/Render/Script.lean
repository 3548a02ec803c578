import Stencil.Render

/-!
# Scripts

What a rendering comes to, without scratch buffers and shared frames: the chunks that the
nodes offer one after the other, each on behalf of a span, and the fault that ends them
early.  A script knows nothing of the sink, which may still refuse any of its chunks.
-/

namespace Stencil

inductive ScriptFault where
  | lookup (purpose : Lookup) (error : PathError)
  | notIterable (path : Path)
  deriving DecidableEq, Repr

def ScriptFault.toRenderFault {ε : Type} : ScriptFault → RenderFault ε
  | lookup purpose error => .lookup purpose error
  | notIterable path => .notIterable path

structure Script where
  chunks : List (Bytes × Span) := []
  ending : Except (ScriptFault × Span) Unit := .ok ()

namespace Script

def done : Script := {}

def chunk (bytes : Bytes) (span : Span) : Script where
  chunks := [(bytes, span)]

def stop (fault : ScriptFault) (span : Span) : Script where
  ending := .error (fault, span)

/-- The second script is not begun when the first one ends early. -/
def andThen (first second : Script) : Script :=
  match first.ending with
  | .ok () => ⟨first.chunks ++ second.chunks, second.ending⟩
  | .error _ => first

def all (scripts : List Script) : Script :=
  scripts.foldr andThen done

end Script

/-!
# The script of a template
-/

def resolve (ns frame : Dict Value) (path : Path) : Except PathError Value :=
  match lookup frame path with
  | .ok v => .ok v
  | .error _ => lookup ns path

/-- The bytes of a string as they are, and the whole display text of any other value. -/
def Value.substitution [Addressing] : Value → Bytes
  | .string bytes => bytes
  | v => v.display

def loopBinding (entry : Key × Value) : Dict Value :=
  ⟨[(Rendering.keyName, entry.1.toValue), (Rendering.valueName, entry.2)]⟩

def passFrame (frame : Dict Value) (var : Bytes) (entry : Key × Value) : Dict Value :=
  frame.replace var (.dict (loopBinding entry))

namespace Script

def resolving (ns frame : Dict Value) (path : Path) (purpose : Lookup) (span : Span)
    (next : Value → Script) : Script :=
  match resolve ns frame path with
  | .ok v => next v
  | .error e => stop (.lookup purpose e) span

mutual

def ofNode [Addressing] (ns : Dict Value) : Node → Dict Value → Script
  | .text bytes span, _ => chunk bytes span
  | .subst path span, frame =>
    resolving ns frame path .substitution span fun v => chunk v.substitution span
  | .cond condition thenBranch elseBranch span, frame =>
    resolving ns frame condition .condition span fun v =>
      if v.isTruthy then ofNodes ns thenBranch frame else ofNodes ns elseBranch frame
  | .loop var iterable body span, frame =>
    resolving ns frame iterable .iterable span fun v =>
      match v.entries with
      | .ok entries =>
        all (entries.map fun entry => ofNodes ns body (passFrame frame var entry))
      | .error _ => stop (.notIterable iterable) span

def ofNodes [Addressing] (ns : Dict Value) : List Node → Dict Value → Script
  | [], _ => done
  | node :: rest, frame => (ofNode ns node frame).andThen (ofNodes ns rest frame)

end

end Script

/-!
# Playing scripts
-/

variable {σ ε : Type}

def Sink.feed (sink : Sink σ ε) (state : σ) :
    List (Bytes × Span) → σ × Except (RenderError ε) Unit
  | [] => (state, .ok ())
  | (bytes, span) :: rest =>
    match sink.offer state bytes with
    | (next, .ok ()) => sink.feed next rest
    | (next, .error refusal) => (next, .error ⟨.write refusal, span⟩)

namespace Script

def play (script : Script) (sink : Sink σ ε) (state : σ) : σ × Except (RenderError ε) Unit :=
  match sink.feed state script.chunks with
  | (next, .ok ()) => (next, script.ending.mapError fun e => ⟨e.1.toRenderFault, e.2⟩)
  | (next, .error e) => (next, .error e)

theorem feed_append (sink : Sink σ ε) (state : σ) (front back : List (Bytes × Span)) :
    sink.feed state (front ++ back) =
      match sink.feed state front with
      | (next, .ok ()) => sink.feed next back
      | (next, .error e) => (next, .error e) := by
  induction front generalizing state with
  | nil =>
      rfl
  | cons entry front ih =>
      rcases entry with ⟨bytes, span⟩
      rw [List.cons_append, Sink.feed, Sink.feed]
      rcases sink.offer state bytes with ⟨next, _ | _⟩
      · rfl
      · exact ih next

theorem play_andThen (first second : Script) (sink : Sink σ ε) (state : σ) :
    (first.andThen second).play sink state =
      match first.play sink state with
      | (next, .ok ()) => second.play sink next
      | (next, .error e) => (next, .error e) := by
  rcases first with ⟨chunks, e | _⟩
  · have hfirst : (Script.mk chunks (.error e)).andThen second = ⟨chunks, .error e⟩ := rfl
    rw [hfirst, play]
    rcases sink.feed state chunks with ⟨next, _ | _⟩
    · rfl
    · rfl
  · have hfirst : (Script.mk chunks (.ok ())).andThen second =
        ⟨chunks ++ second.chunks, second.ending⟩ := rfl
    rw [hfirst, play, play, feed_append]
    rcases sink.feed state chunks with ⟨next, _ | _⟩
    · rfl
    · rfl

theorem feed_eq_error {sink : Sink σ ε} {state next : σ} {chunks : List (Bytes × Span)}
    {e : RenderError ε} (h : sink.feed state chunks = (next, .error e)) :
    ∃ refusal, e.fault = .write refusal := by
  induction chunks generalizing state with
  | nil =>
      cases h
  | cons entry rest ih =>
      rcases entry with ⟨bytes, span⟩
      rw [Sink.feed] at h
      rcases hoffer : sink.offer state bytes with ⟨after, refusal | _⟩
      · rw [hoffer] at h
        cases h
        exact ⟨refusal, rfl⟩
      · rw [hoffer] at h
        exact ih h

theorem play_ne_loopVariableMissing (script : Script) (sink : Sink σ ε) (state : σ)
    (span : Span) :
    (script.play sink state).2 ≠ .error ⟨.loopVariableMissing, span⟩ := by
  intro h
  rcases script with ⟨chunks, ending⟩
  rw [play] at h
  rcases hfeed : sink.feed state chunks with ⟨next, e | _⟩
  · rw [hfeed] at h
    cases h
    rcases feed_eq_error hfeed with ⟨refusal, hfault⟩
    cases hfault
  · rw [hfeed] at h
    rcases ending with ⟨fault, place⟩ | _
    · cases fault with
      | lookup purpose error =>
          cases h
      | notIterable path =>
          cases h
    · cases h

end Script

end Stencil
