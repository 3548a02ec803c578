import Stencil.Proofs.Render.Composition
import Stencil.Standard

/-!
# Sinks with little room

A buffer with a limit and a stream with a capacity refuse a chunk when the output as a
whole has become too long for them.  How the output is cut into chunks, and the chunks
into writes, does not show in what they hold in the end.
-/

namespace Stencil

variable {σ ε : Type}

theorem Sink.Accepts.content_eq {sink : Sink σ ε} (content : σ → Bytes) (Inv : σ → Prop)
    (hstep : ∀ state chunk next, Inv state → sink.offer state chunk = (next, .ok ()) →
      content next = content state ++ chunk ∧ Inv next)
    {state final : σ} {chunks : List Bytes} (h : sink.Accepts state chunks final)
    (hstate : Inv state) : content final = content state ++ chunks.flatten ∧ Inv final := by
  induction h with
  | nil state =>
      exact ⟨(List.append_nil _).symm, hstate⟩
  | cons hoffer _ ih =>
      rcases hstep _ _ _ hstate hoffer with ⟨hcontent, hnext⟩
      rcases ih hnext with ⟨hfinal, hinv⟩
      refine ⟨?_, hinv⟩
      rw [hfinal, hcontent, List.append_assoc, List.flatten_cons]

theorem Script.bytes_eq {script : Script} {front back : List (Bytes × Span)} {chunk : Bytes}
    {span : Span} (h : script.chunks = front ++ (chunk, span) :: back) :
    script.bytes =
      (front.map Prod.fst).flatten ++ (chunk ++ (back.map Prod.fst).flatten) := by
  simp [bytes, h]

/-!
# Buffers
-/

namespace OutputBuffer

theorem Within.foldl_offer {limit : Nat} {buffer : OutputBuffer} (h : buffer.Within limit)
    (chunks : List Bytes) :
    (chunks.foldl (fun buffer chunk => (sink.offer buffer chunk).1) buffer).Within limit := by
  induction chunks generalizing buffer with
  | nil =>
      exact h
  | cons chunk rest ih =>
      rcases offer_cases h chunk with ⟨next, hoffer, hnext, _⟩ | ⟨next, hoffer, hnext, _⟩
      · rw [List.foldl_cons, hoffer]
        exact ih hnext
      · rw [List.foldl_cons, hoffer]
        exact ih hnext

theorem content_of_accepts {limit : Nat} {final : OutputBuffer} {chunks : List Bytes}
    (h : sink.Accepts { limit } chunks final) :
    final.content = chunks.flatten ∧ final.Within limit := by
  refine h.content_eq content (Within limit) ?_ (within_new limit)
  intro state chunk next hstate hoffer
  rcases offer_cases hstate chunk with ⟨other, haccept, hnext, hcontent⟩ | ⟨other, hrefuse, _⟩
  · rw [haccept] at hoffer
    cases hoffer
    exact ⟨hcontent, hnext⟩
  · rw [hrefuse] at hoffer
    cases hoffer

end OutputBuffer

/-- The output of a template in a buffer: all of it below the limit, and nothing
otherwise. -/
theorem Template.renderTo_buffer [Addressing] (t : Template) (ns : Dict Value) (limit : Nat) :
    ((t.script ns).bytes = [] ∨ (t.script ns).bytes.length < limit) ∧
        (∃ buffer, t.renderTo OutputBuffer.sink { limit } ns =
          (buffer, (t.script ns).outcome) ∧
          buffer.content = (t.script ns).bytes) ∨
      ((t.script ns).bytes ≠ [] ∧ limit ≤ (t.script ns).bytes.length) ∧
        ∃ buffer span, t.renderTo OutputBuffer.sink { limit } ns =
          (buffer, .error ⟨.write (.limitReached limit), span⟩) ∧ buffer.content = [] := by
  rcases t.renderTo_cases OutputBuffer.sink { limit } ns with ⟨final, haccepts, hrender⟩ |
    ⟨front, chunk, span, back, mid, final, refusal, hchunks, haccepts, hrefuse, hrender⟩
  · rcases OutputBuffer.content_of_accepts haccepts with ⟨hcontent, hwithin⟩
    have hshort := hwithin.short
    rw [hcontent] at hshort
    exact Or.inl ⟨hshort, final, hrender, hcontent⟩
  · rcases OutputBuffer.content_of_accepts haccepts with ⟨hcontent, hwithin⟩
    rcases OutputBuffer.offer_cases hwithin chunk with ⟨next, haccept, _⟩ |
      ⟨next, hoffer, _, hempty, hne, hreached⟩
    · rw [haccept] at hrefuse
      cases hrefuse
    · rw [hoffer] at hrefuse
      cases hrefuse
      have hbytes := Script.bytes_eq hchunks
      rw [← hcontent, ← List.append_assoc] at hbytes
      refine Or.inr ⟨⟨?_, ?_⟩, final, span, hrender, hempty⟩
      · rw [hbytes]
        simp [hne]
      · rw [hbytes, List.length_append]
        exact Nat.le_trans hreached (Nat.le_add_right _ _)

/-!
# Streams
-/

theorem Stream.taken_of_accepts {step : Option Nat} (hstep : step ≠ some 0) {capacity : Nat}
    {final : Stream} {chunks : List Bytes}
    (h : sink.Accepts { step, capacity := some capacity } chunks final) :
    final.taken = chunks.flatten ∧ final.WellFormed ∧ final.capacity = some capacity := by
  have hnew : WellFormed { step, capacity := some capacity } := by
    refine ⟨hstep, ?_⟩
    intro _ _
    exact Nat.zero_le _
  refine h.content_eq taken (fun s => s.WellFormed ∧ s.capacity = some capacity) ?_ ⟨hnew, rfl⟩
  intro state chunk next hstate hoffer
  have htakes := hstate.left.takes_offer chunk
  rw [hoffer] at htakes
  cases htakes with
  | all hall =>
      exact ⟨hall.taken_eq, hall.wellFormed, hall.capacity_eq.trans hstate.right⟩

/-- The output of a template to a stream with a capacity: as much as there is room for. -/
theorem Template.renderTo_stream [Addressing] (t : Template) (ns : Dict Value)
    {step : Option Nat} (hstep : step ≠ some 0) (capacity : Nat) :
    (t.script ns).bytes.length ≤ capacity ∧
        (∃ stream, t.renderTo Stream.sink { step, capacity := some capacity } ns =
          (stream, (t.script ns).outcome) ∧ stream.taken = (t.script ns).bytes) ∨
      capacity < (t.script ns).bytes.length ∧
        ∃ stream span, t.renderTo Stream.sink { step, capacity := some capacity } ns =
          (stream, .error ⟨.write .incompleteWrite, span⟩) ∧
          stream.taken = (t.script ns).bytes.take capacity := by
  rcases t.renderTo_cases Stream.sink { step, capacity := some capacity } ns with
    ⟨final, haccepts, hrender⟩ |
    ⟨front, chunk, span, back, mid, final, refusal, hchunks, haccepts, hrefuse, hrender⟩
  · rcases Stream.taken_of_accepts hstep haccepts with ⟨htaken, hwell, hcapacity⟩
    have hroom := hwell.room capacity hcapacity
    rw [htaken] at hroom
    exact Or.inl ⟨hroom, final, hrender, htaken⟩
  · rcases Stream.taken_of_accepts hstep haccepts with ⟨htaken, hwell, hcapacity⟩
    have htakes := hwell.takes_offer chunk
    rw [hrefuse] at htakes
    cases htakes with
    | @part part rest _ hsplit hne hpart hfull =>
        rw [Stream.Full, hpart.capacity_eq, hcapacity, Option.some.injEq] at hfull
        have hbytes : (t.script ns).bytes =
            final.taken ++ (rest ++ (back.map Prod.fst).flatten) := by
          rw [Script.bytes_eq hchunks, hpart.taken_eq, ← htaken, hsplit]
          simp
        refine Or.inr ⟨?_, final, span, hrender, ?_⟩
        · have hrest := List.length_pos_iff.mpr hne
          rw [hbytes, hfull, List.length_append, List.length_append]
          omega
        · rw [hbytes, hfull, List.take_left]

/-!
# The theorem
-/

theorem Script.outcome_ne_write (script : Script) (refusal : ε) (span : Span) :
    script.outcome ≠ .error ⟨.write refusal, span⟩ := by
  intro h
  rcases (mapError_eq_error_iff _ _ _).mp h with ⟨⟨fault, place⟩, _, hfault⟩
  cases fault with
  | lookup purpose error =>
      cases hfault
  | notIterable path =>
      cases hfault

/-- Sinks with little room go by the length of an output.  A buffer ends up with the
output and the outcome that the template has anywhere when the output is empty or below
the limit, and otherwise it ends up empty and the rendering with a refusal; at no time
does it hold as much as its limit.  A stream gets the output up to its capacity, however
many bytes it takes at a time, and the rendering is refused just when that is not all. -/
theorem bounded_sinks_depend_on_amount [Addressing] (t : Template) (ns : Dict Value) :
    (∃ recorder, t.renderTo Recorder.sink {} ns = (recorder, (t.script ns).outcome) ∧
      recorder.accepted.flatten = (t.script ns).bytes) ∧
    (∀ limit : Nat, ∃ buffer outcome,
      t.renderTo OutputBuffer.sink { limit } ns = (buffer, outcome) ∧
      ((t.script ns).bytes = [] ∨ (t.script ns).bytes.length < limit →
        buffer.content = (t.script ns).bytes ∧ outcome = (t.script ns).outcome) ∧
      (¬ ((t.script ns).bytes = [] ∨ (t.script ns).bytes.length < limit) →
        buffer.content = [] ∧ ∃ span, outcome = .error ⟨.write (.limitReached limit), span⟩)) ∧
    (∀ (limit : Nat) (chunks : List Bytes) (buffer : OutputBuffer),
      buffer =
        chunks.foldl (fun buffer chunk => (OutputBuffer.sink.offer buffer chunk).1) { limit } →
        buffer.content = [] ∨ buffer.content.length < limit) ∧
    (∀ (step : Option Nat) (capacity : Nat), step ≠ some 0 → ∃ stream outcome,
      t.renderTo Stream.sink { step, capacity := some capacity } ns = (stream, outcome) ∧
      stream.taken = (t.script ns).bytes.take (min capacity (t.script ns).bytes.length) ∧
      (outcome = (t.script ns).outcome ↔ (t.script ns).bytes.length ≤ capacity) ∧
      (capacity < (t.script ns).bytes.length →
        ∃ span, outcome = .error ⟨.write .incompleteWrite, span⟩)) := by
  refine ⟨?_, ?_, ?_, ?_⟩
  · have hpatient : ({} : Recorder).patience = none := rfl
    rcases Recorder.exists_accepts hpatient ((t.script ns).chunks.map Prod.fst) with
      ⟨final, haccepts, haccepted⟩
    refine ⟨final, Template.renderTo_of_accepts haccepts, ?_⟩
    rw [haccepted]
    rfl
  · intro limit
    rcases t.renderTo_buffer ns limit with ⟨hshort, buffer, hrender, hcontent⟩ |
      ⟨⟨hne, hlong⟩, buffer, span, hrender, hempty⟩
    · exact ⟨buffer, _, hrender, fun _ => ⟨hcontent, rfl⟩, fun hnot => absurd hshort hnot⟩
    · refine ⟨buffer, _, hrender, ?_, fun _ => ⟨hempty, span, rfl⟩⟩
      intro hshort
      rcases hshort with hnil | hshort
      · exact absurd hnil hne
      · exact absurd hshort (Nat.not_lt.mpr hlong)
  · intro limit chunks buffer hbuffer
    rw [hbuffer]
    exact ((OutputBuffer.within_new limit).foldl_offer chunks).short
  · intro step capacity hstep
    rcases t.renderTo_stream ns hstep capacity with ⟨hroom, stream, hrender, htaken⟩ |
      ⟨hlong, stream, span, hrender, htaken⟩
    · refine ⟨stream, _, hrender, ?_, ⟨fun _ => hroom, fun _ => rfl⟩, ?_⟩
      · rw [Nat.min_eq_right hroom, List.take_length, htaken]
      · exact fun hlong => absurd hroom (Nat.not_le.mpr hlong)
    · refine ⟨stream, _, hrender, ?_, ⟨?_, ?_⟩, fun _ => ⟨span, rfl⟩⟩
      · rw [Nat.min_eq_left (Nat.le_of_lt hlong), htaken]
      · exact fun hsame => absurd hsame.symm ((t.script ns).outcome_ne_write _ span)
      · exact fun hroom => absurd hroom (Nat.not_le.mpr hlong)

theorem bounded_sinks_depend_on_amount_full_stream :
    some 2 ≠ some 0 ∧ ∃ stream span,
      Template.renderTo Stream.sink { step := some 2, capacity := some 3 }
        ⟨[.text [0x61, 0x62] ⟨1, 0, 2⟩, .text [0x63, 0x64] ⟨1, 2, 4⟩]⟩ .empty =
          (stream, .error ⟨.write .incompleteWrite, span⟩) ∧
      stream.taken = [0x61, 0x62, 0x63] := by
  have hstep : some 2 ≠ some 0 := nofun
  rcases bounded_sinks_depend_on_amount
    ⟨[.text [0x61, 0x62] ⟨1, 0, 2⟩, .text [0x63, 0x64] ⟨1, 2, 4⟩]⟩ .empty with
      ⟨_, _, _, hstream⟩
  rcases hstream (some 2) 3 hstep with ⟨stream, outcome, hrender, htaken, _, hfull⟩
  rcases hfull (by decide) with ⟨span, rfl⟩
  exact ⟨hstep, stream, span, hrender, htaken⟩

end Stencil
