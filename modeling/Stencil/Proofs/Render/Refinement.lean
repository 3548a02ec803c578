import Stencil.Dict.Lemmas
import Stencil.Proofs.Render.Script
import Stencil.Proofs.Value.Window

/-!
# Rendering plays the script

Rendering keeps one scratch buffer for all substitutions and one frame for all passes of a
loop.  Neither shows: whatever the buffer holds at the outset, the sink is offered the
chunks of the script and the rendering ends as the script does.
-/

namespace Stencil

variable {σ ε : Type}

namespace Rendering

/-!
# Results
-/

/-- The sink afterwards and the outcome; the scratch buffer is forgotten. -/
def result {α : Type} (r : Rendering σ ε α) (progress : Progress σ) :
    σ × Except (RenderError ε) α :=
  ((r.run progress).2.sink, (r.run progress).1)

theorem run_get_bind {α : Type} (next : Progress σ → Rendering σ ε α) (progress : Progress σ) :
    (get >>= next).run progress = (next progress).run progress := rfl

theorem run_bind {α β : Type} (r : Rendering σ ε α) (next : α → Rendering σ ε β)
    (progress : Progress σ) :
    (r >>= next).run progress =
      match r.run progress with
      | (.ok a, after) => (next a).run after
      | (.error e, after) => (.error e, after) := by
  change (ExceptT.bindCont next (r.run progress).1) (r.run progress).2 = _
  rcases r.run progress with ⟨_ | _, after⟩
  · rfl
  · rfl

theorem result_bind {α β : Type} (r : Rendering σ ε α) (next : α → Rendering σ ε β)
    (progress : Progress σ) :
    (r >>= next).result progress =
      match r.run progress with
      | (.ok a, after) => (next a).result after
      | (.error e, after) => (after.sink, .error e) := by
  rw [result, run_bind]
  rcases r.run progress with ⟨_ | _, after⟩
  · rfl
  · rfl

/-- A rendering plays a script when it does to every sink what the script does, whatever
is in the scratch buffer. -/
def Plays (sink : Sink σ ε) (r : Rendering σ ε Unit) (script : Script) : Prop :=
  ∀ progress, r.result progress = script.play sink progress.sink

theorem plays_pure (sink : Sink σ ε) : Plays sink (pure ()) Script.done := by
  intro progress
  rfl

theorem Plays.bind {sink : Sink σ ε} {first second : Rendering σ ε Unit}
    {firstScript secondScript : Script} (hfirst : Plays sink first firstScript)
    (hsecond : Plays sink second secondScript) :
    Plays sink (first >>= fun _ => second) (firstScript.andThen secondScript) := by
  intro progress
  have hresult := hfirst progress
  rw [result] at hresult
  rw [result_bind, Script.play_andThen, ← hresult]
  rcases first.run progress with ⟨_ | _, after⟩
  · rfl
  · exact hsecond after

theorem plays_fail (sink : Sink σ ε) (fault : ScriptFault) (span : Span) :
    Plays sink (fail fault.toRenderFault span) (Script.stop fault span) := by
  intro progress
  rfl

theorem plays_emit (sink : Sink σ ε) (bytes : Bytes) (span : Span) :
    Plays sink (emit sink bytes span) (Script.chunk bytes span) := by
  intro progress
  rw [result, emit, run_get_bind, Script.play, Script.chunk, Sink.feed]
  rcases sink.offer progress.sink bytes with ⟨next, _ | _⟩
  · rfl
  · rfl

theorem plays_fetch {sink : Sink σ ε} {ns frame : Dict Value} {path : Path} {purpose : Lookup}
    {span : Span} {next : Value → Rendering σ ε Unit} {script : Value → Script}
    (hnext : ∀ v, Plays sink (next v) (script v)) :
    Plays sink (fetch ns frame path purpose span >>= next)
      (Script.resolving ns frame path purpose span script) := by
  intro progress
  rw [result_bind, Script.resolving, resolve, fetch]
  cases lookup frame path with
  | ok v =>
      exact hnext v progress
  | error _ =>
      cases lookup ns path with
      | ok v =>
          exact hnext v progress
      | error e =>
          rfl

/-!
# The scratch buffer
-/

theorem exists_run_display [Addressing] (v : Value) (progress : Progress σ) :
    ∃ scratch, (display v : Rendering σ ε Nat).run progress =
        (.ok v.display.length, ⟨progress.sink, scratch⟩) ∧
      scratch.take v.display.length = v.display := by
  have hsize := v.renderInto_size progress.scratch
  have htotal := v.renderInto_total progress.scratch
  rw [display, run_get_bind]
  simp only [hsize, htotal]
  split
  · rename_i hlarge
    refine ⟨_, rfl, v.take_renderInto_buffer ?_⟩
    rw [List.length_append, Window.length_buffer, hsize, List.length_replicate]
    omega
  · rename_i hroom
    exact ⟨_, rfl, v.take_renderInto_buffer (Nat.le_of_not_lt hroom)⟩

theorem plays_substitute [Addressing] (sink : Sink σ ε) (v : Value) (span : Span) :
    Plays sink (substitute sink v span) (Script.chunk v.substitution span) := by
  have hdisplay : Plays sink
      (do
        let needed ← display v
        let progress ← get
        emit sink (progress.scratch.take needed) span)
      (Script.chunk v.display span) := by
    intro progress
    have hrun : ∃ scratch, (display v : Rendering σ ε Nat).run progress = _ ∧ _ :=
      exists_run_display v progress
    rcases hrun with ⟨scratch, hrun, htext⟩
    rw [result_bind, hrun]
    simp only
    rw [result, run_get_bind, htext]
    exact plays_emit sink v.display span ⟨progress.sink, scratch⟩
  cases v with
  | string bytes =>
      exact plays_emit sink bytes span
  | none =>
      exact hdisplay
  | int n =>
      exact hdisplay
  | array items =>
      exact hdisplay
  | dict entries =>
      exact hdisplay

/-!
# Frames of loops
-/

theorem replace_empty (key : Key) (v : Value) :
    (Dict.empty.replace keyName key.toValue).replace valueName v = loopBinding (key, v) := by
  have hnames : (keyName != valueName) = true := by decide
  simp [loopBinding, Dict.empty, Dict.replace, Dict.remove, hnames]

theorem replace_loopBinding (earlier : Key × Value) (key : Key) (v : Value) :
    ((loopBinding earlier).replace keyName key.toValue).replace valueName v =
      loopBinding (key, v) := by
  have hnames : (keyName != valueName) = true ∧ (valueName != keyName) = true := by decide
  simp [loopBinding, Dict.replace, Dict.remove, hnames]

/-- Each pass plays as it would in a frame of its own.  What matters of the frame that the
passes share is only that the next entry replaces all that its loop variable holds. -/
theorem plays_forEach {sink : Sink σ ε} {body : Dict Value → Rendering σ ε Unit}
    {script : Dict Value → Script} (hbody : ∀ frame, Plays sink (body frame) (script frame))
    (frame : Dict Value) (var : Bytes) (span : Span) (entries : List (Key × Value))
    {held : Dict Value} (hheld : ∀ key v,
      (held.replace keyName key.toValue).replace valueName v = loopBinding (key, v)) :
    Plays sink (forEach body var span (frame.replace var (.dict held)) entries)
      (Script.all (entries.map fun entry => script (passFrame frame var entry))) := by
  -- The invariant is that the frame is `frame` but for the loop
  -- variable, which holds `held`.
  induction entries generalizing held with
  | nil =>
      exact plays_pure sink
  | cons entry rest ih =>
      rcases entry with ⟨key, v⟩
      have hpass : (frame.replace var (.dict held)).update var (.dict (loopBinding (key, v))) =
          passFrame frame var (key, v) := by
        rw [Dict.update_replace, passFrame]
      rw [forEach, Dict.get?_replace_self]
      simp only [hheld, hpass]
      exact (hbody _).bind (ih (replace_loopBinding (key, v)))

/-!
# Nodes
-/

mutual

theorem plays_node [Addressing] (sink : Sink σ ε) (ns : Dict Value) :
    ∀ n frame, Plays sink (node sink ns n frame) (Script.ofNode ns n frame)
  | .text bytes span, _ => plays_emit sink bytes span
  | .subst path span, frame => plays_fetch fun v => plays_substitute sink v span
  | .cond condition thenBranch elseBranch span, frame => by
      rw [node, Script.ofNode]
      apply plays_fetch
      intro v
      split
      · exact plays_nodes sink ns thenBranch frame
      · exact plays_nodes sink ns elseBranch frame
  | .loop var iterable body span, frame => by
      rw [node, Script.ofNode]
      apply plays_fetch
      intro v
      cases v.entries with
      | ok entries =>
          exact plays_forEach (plays_nodes sink ns body) frame var span entries replace_empty
      | error _ =>
          exact plays_fail sink (.notIterable iterable) span

theorem plays_nodes [Addressing] (sink : Sink σ ε) (ns : Dict Value) :
    ∀ list frame, Plays sink (nodes sink ns list frame) (Script.ofNodes ns list frame)
  | [], _ => plays_pure sink
  | n :: rest, frame => by
      rw [nodes, Script.ofNodes]
      exact (plays_node sink ns n frame).bind (plays_nodes sink ns rest frame)

end

/-- Whatever sink, namespace, frame and scratch buffer there are at the outset, rendering
nodes does to the sink what their script does and has the same outcome; so the fault that
a loop reports when its variable is not in the frame never occurs. -/
theorem nodes_result_eq_play [Addressing] (sink : Sink σ ε) (ns : Dict Value)
    (list : List Node) (frame : Dict Value) (progress : Progress σ) :
    (nodes sink ns list frame).result progress =
        (Script.ofNodes ns list frame).play sink progress.sink ∧
      ∀ span, ((nodes sink ns list frame).run progress).1 ≠
        .error ⟨.loopVariableMissing, span⟩ := by
  have hplays := plays_nodes sink ns list frame progress
  refine ⟨hplays, ?_⟩
  intro span
  have houtcome : ((nodes sink ns list frame).run progress).1 =
      ((Script.ofNodes ns list frame).play sink progress.sink).2 := congrArg Prod.snd hplays
  rw [houtcome]
  exact Script.play_ne_loopVariableMissing _ sink progress.sink span

end Rendering

theorem Template.renderWith_eq_play [Addressing] (sink : Sink σ ε) (state : σ) (t : Template)
    (ns frame : Dict Value) :
    t.renderWith sink state ns frame = (Script.ofNodes ns t.nodes frame).play sink state :=
  Rendering.plays_nodes sink ns t.nodes frame ⟨state, _⟩

end Stencil
