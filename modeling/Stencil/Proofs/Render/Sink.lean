import Stencil.Render.Sink

/-!
# Sinks that accept

A sink accepts chunks one after the other until it refuses one.  Buffers,
streams and recorders accept whatever they have room for, and then hold it
behind what they held before.
-/

namespace Stencil

variable {σ ε : Type}

namespace Sink

/-!
# Accepted chunks
-/

inductive Accepts (sink : Sink σ ε) : σ → List Bytes → σ → Prop where
  | nil (state : σ) : Accepts sink state [] state
  | cons {state next final : σ} {chunk : Bytes} {rest : List Bytes} :
      sink.offer state chunk = (next, .ok ()) → Accepts sink next rest final →
      Accepts sink state (chunk :: rest) final

/-- The sink beside a list of all chunks that it is offered, a refused one included. -/
def watched (sink : Sink σ ε) : Sink (σ × List Bytes) ε where
  offer state chunk :=
    let (next, outcome) := sink.offer state.1 chunk
    ((next, state.2 ++ [chunk]), outcome)

theorem watched_offer {sink : Sink σ ε} {state next : σ} {chunk : Bytes}
    {outcome : Except ε Unit} (h : sink.offer state chunk = (next, outcome))
    (seen : List Bytes) :
    sink.watched.offer (state, seen) chunk = ((next, seen ++ [chunk]), outcome) := by
  rw [watched]
  simp only [h]

theorem Accepts.watched {sink : Sink σ ε} {state final : σ} {chunks : List Bytes}
    (h : sink.Accepts state chunks final) (seen : List Bytes) :
    sink.watched.Accepts (state, seen) chunks (final, seen ++ chunks) := by
  induction h generalizing seen with
  | nil state =>
      rw [List.append_nil]
      exact Accepts.nil _
  | @cons _ _ _ chunk rest hoffer _ ih =>
      have hrest := ih (seen ++ [chunk])
      rw [List.append_assoc] at hrest
      exact Accepts.cons (watched_offer hoffer seen) hrest

end Sink

/-!
# Sinks with room

Each sink keeps what it accepts.  `Fits` says of a state that there is room for all chunks
to come, and accepting the first one leaves room for the others.
-/

theorem Sink.exists_accepts {α : Type} {sink : Sink σ ε} (content : σ → List α)
    (part : Bytes → List α) (Fits : σ → List Bytes → Prop)
    (hstep : ∀ state chunk rest, Fits state (chunk :: rest) →
      ∃ next, sink.offer state chunk = (next, .ok ()) ∧
        content next = content state ++ part chunk ∧ Fits next rest)
    (state : σ) (chunks : List Bytes) (hfits : Fits state chunks) :
    ∃ final, sink.Accepts state chunks final ∧
      content final = content state ++ chunks.flatMap part := by
  induction chunks generalizing state with
  | nil =>
      exact ⟨state, Accepts.nil state, (List.append_nil _).symm⟩
  | cons chunk rest ih =>
      rcases hstep state chunk rest hfits with ⟨next, hoffer, hcontent, hrest⟩
      rcases ih next hrest with ⟨final, haccepts, hfinal⟩
      refine ⟨final, Accepts.cons hoffer haccepts, ?_⟩
      rw [hfinal, hcontent, List.flatMap_cons, List.append_assoc]

namespace OutputBuffer

structure Within (limit : Nat) (buffer : OutputBuffer) : Prop where
  limit_eq : buffer.limit = limit
  short : buffer.content = [] ∨ buffer.content.length < limit

theorem within_new (limit : Nat) : Within limit { limit } :=
  ⟨rfl, Or.inl rfl⟩

theorem offer_cases {limit : Nat} {buffer : OutputBuffer} (h : buffer.Within limit)
    (chunk : Bytes) :
    (∃ next, sink.offer buffer chunk = (next, .ok ()) ∧ next.Within limit ∧
      next.content = buffer.content ++ chunk) ∨
      ∃ next, sink.offer buffer chunk = (next, .error (.limitReached limit)) ∧
        next.Within limit ∧
        next.content = [] ∧ chunk ≠ [] ∧ limit ≤ (buffer.content ++ chunk).length := by
  rcases h with ⟨rfl, hshort⟩
  have hlength : (buffer.content ++ chunk).length = buffer.collected.size + chunk.length := by
    rw [List.length_append, Log.size_eq_length, content]
  have hoffer : sink.offer buffer chunk = buffer.offer chunk := rfl
  rw [hoffer, offer]
  by_cases hempty : chunk.isEmpty
  · rw [if_pos hempty]
    rw [List.isEmpty_iff] at hempty
    subst hempty
    exact Or.inl ⟨buffer, rfl, ⟨rfl, hshort⟩, (List.append_nil _).symm⟩
  · rw [if_neg hempty, ← hlength]
    rw [List.isEmpty_iff] at hempty
    by_cases hreached : buffer.limit ≤ (buffer.content ++ chunk).length
    · rw [if_pos hreached]
      exact Or.inr ⟨_, rfl, ⟨rfl, Or.inl rfl⟩, rfl, hempty, hreached⟩
    · rw [if_neg hreached]
      have hcontent : (buffer.collected.append chunk).toList = buffer.content ++ chunk :=
        Log.toList_append _ _
      refine Or.inl ⟨_, rfl, ⟨rfl, Or.inr ?_⟩, hcontent⟩
      rw [content, hcontent]
      exact Nat.lt_of_not_le hreached

def Fits (buffer : OutputBuffer) (chunks : List Bytes) : Prop :=
  buffer.content.length + chunks.flatten.length < buffer.limit

theorem exists_offer {buffer : OutputBuffer} {chunk : Bytes} {rest : List Bytes}
    (h : buffer.Fits (chunk :: rest)) :
    ∃ next, sink.offer buffer chunk = (next, .ok ()) ∧ next.content = buffer.content ++ chunk ∧
      next.Fits rest := by
  rw [Fits, List.flatten_cons, List.length_append, ← Nat.add_assoc, ← List.length_append] at h
  have hbelow := Nat.lt_of_le_of_lt (Nat.le_add_right _ _) h
  have hshort : buffer.content.length < buffer.limit := by
    rw [List.length_append] at hbelow
    exact Nat.lt_of_le_of_lt (Nat.le_add_right _ _) hbelow
  rcases offer_cases ⟨rfl, Or.inr hshort⟩ chunk with ⟨next, hoffer, hnext, hcontent⟩ |
    ⟨_, _, _, _, _, hreached⟩
  · refine ⟨next, hoffer, hcontent, ?_⟩
    rw [Fits, hcontent, hnext.limit_eq]
    exact h
  · exact absurd hbelow (Nat.not_lt.mpr hreached)

theorem Fits.exists_accepts {buffer : OutputBuffer} {chunks : List Bytes}
    (h : buffer.Fits chunks) :
    ∃ final, sink.Accepts buffer chunks final ∧
      final.content = buffer.content ++ chunks.flatten := by
  rw [← List.flatMap_id]
  exact Sink.exists_accepts content id Fits (fun _ _ _ => exists_offer) buffer chunks h

end OutputBuffer

namespace Stream

structure Fits (s : Stream) (bytes : Bytes) : Prop where
  moves : s.step ≠ some 0
  room : ∀ capacity, s.capacity = some capacity → s.taken.length + bytes.length ≤ capacity

theorem portion_isPrefix (s : Stream) (bytes : Bytes) : s.portion bytes <+: bytes := by
  unfold portion
  cases s.step with
  | none =>
      cases s.capacity with
      | none =>
          exact List.prefix_refl _
      | some capacity =>
          exact List.take_prefix _ _
  | some step =>
      cases s.capacity with
      | none =>
          exact List.take_prefix _ _
      | some capacity =>
          exact (List.take_prefix _ _).trans (List.take_prefix _ _)

structure WellFormed (s : Stream) : Prop where
  moves : s.step ≠ some 0
  room : ∀ capacity, s.capacity = some capacity → s.taken.length ≤ capacity

def Full (s : Stream) : Prop :=
  s.capacity = some s.taken.length

theorem WellFormed.exists_portion_eq {s : Stream} (h : s.WellFormed) {bytes : Bytes}
    (hne : bytes ≠ []) :
    ∃ stepped, stepped ≠ [] ∧ s.portion bytes =
      match s.capacity with
      | some capacity => stepped.take (capacity - s.taken.length)
      | none => stepped := by
  rw [taken, ← Log.size_eq_length]
  unfold portion
  cases hstep : s.step with
  | none =>
      exact ⟨bytes, hne, rfl⟩
  | some step =>
      refine ⟨bytes.take step, ?_, rfl⟩
      intro hnil
      rcases List.take_eq_nil_iff.mp hnil with hzero | hbytes
      · rw [hzero] at hstep
        exact h.moves hstep
      · exact hne hbytes

theorem WellFormed.full_of_portion_eq_nil {s : Stream} (h : s.WellFormed) {bytes : Bytes}
    (hne : bytes ≠ []) (hportion : s.portion bytes = []) : s.Full := by
  rcases h.exists_portion_eq hne with ⟨stepped, hstepped, heq⟩
  rw [hportion] at heq
  cases hcapacity : s.capacity with
  | none =>
      rw [hcapacity] at heq
      exact absurd heq.symm hstepped
  | some capacity =>
      rw [hcapacity] at heq
      rcases List.take_eq_nil_iff.mp heq.symm with hfull | hnil
      · rw [Full, hcapacity, Nat.le_antisymm (h.room capacity hcapacity)
          (Nat.le_of_sub_eq_zero hfull)]
      · exact absurd hnil hstepped

structure HasTaken (s : Stream) (bytes : Bytes) (next : Stream) : Prop where
  wellFormed : next.WellFormed
  taken_eq : next.taken = s.taken ++ bytes
  step_eq : next.step = s.step
  capacity_eq : next.capacity = s.capacity

theorem WellFormed.hasTaken_nil {s : Stream} (h : s.WellFormed) : s.HasTaken [] s :=
  ⟨h, (List.append_nil _).symm, rfl, rfl⟩

theorem WellFormed.hasTaken_portion {s : Stream} (h : s.WellFormed) {bytes : Bytes}
    (hne : bytes ≠ []) :
    s.HasTaken (s.portion bytes)
      { s with collected := s.collected.append (s.portion bytes) } := by
  have htaken : (s.collected.append (s.portion bytes)).toList = s.taken ++ s.portion bytes :=
    Log.toList_append _ _
  refine ⟨⟨h.moves, ?_⟩, htaken, rfl, rfl⟩
  intro capacity hcapacity
  rcases h.exists_portion_eq hne with ⟨stepped, _, heq⟩
  simp only at hcapacity
  rw [hcapacity] at heq
  have hroom := h.room capacity hcapacity
  rw [taken, htaken, List.length_append, heq, List.length_take]
  omega

theorem HasTaken.trans {s mid next : Stream} {front back : Bytes} (h : s.HasTaken front mid)
    (hback : mid.HasTaken back next) : s.HasTaken (front ++ back) next := by
  refine ⟨hback.wellFormed, ?_, hback.step_eq.trans h.step_eq,
    hback.capacity_eq.trans h.capacity_eq⟩
  rw [hback.taken_eq, h.taken_eq, List.append_assoc]

/-- The result of writing bytes: all of them are taken, or the first ones up to
where the stream is full. -/
inductive Takes (s : Stream) (bytes : Bytes) : Stream × Except Refusal Unit → Prop where
  | all {next : Stream} : s.HasTaken bytes next → Takes s bytes (next, .ok ())
  | part {front rest : Bytes} {next : Stream} :
      bytes = front ++ rest → rest ≠ [] → s.HasTaken front next → next.Full →
      Takes s bytes (next, .error .incompleteWrite)

theorem HasTaken.takes {s mid : Stream} {front back : Bytes}
    {result : Stream × Except Refusal Unit} (h : s.HasTaken front mid)
    (hback : mid.Takes back result) :
    s.Takes (front ++ back) result := by
  cases hback with
  | all hall =>
      exact Takes.all (h.trans hall)
  | part hsplit hne hpart hfull =>
      rw [hsplit, ← List.append_assoc]
      exact Takes.part rfl hne (h.trans hpart) hfull

theorem WellFormed.takes_writeAll {s : Stream} (h : s.WellFormed) {bytes : Bytes} {fuel : Nat}
    (hfuel : bytes.length ≤ fuel) : s.Takes bytes (s.writeAll fuel bytes) := by
  induction fuel generalizing s bytes with
  | zero =>
      have hnil : bytes = [] := List.length_eq_zero_iff.mp (Nat.le_zero.mp hfuel)
      subst hnil
      exact Takes.all h.hasTaken_nil
  | succ fuel ih =>
      cases bytes with
      | nil =>
          exact Takes.all h.hasTaken_nil
      | cons b rest =>
          have hne : b :: rest ≠ [] := List.cons_ne_nil b rest
          have hnext := h.hasTaken_portion hne
          rcases s.portion_isPrefix (b :: rest) with ⟨more, hsplit⟩
          rw [Stream.writeAll]
          · cases hportion : s.portion (b :: rest) with
            | nil =>
                exact Takes.part rfl hne h.hasTaken_nil (h.full_of_portion_eq_nil hne hportion)
            | cons first front =>
                rw [hportion] at hnext hsplit
                rw [← hsplit] at hfuel ⊢
                rw [List.length_append, List.length_cons] at hfuel
                have hshorter : more.length ≤ fuel := by omega
                simp only [List.drop_left]
                exact hnext.takes (ih hnext.wellFormed hshorter)
          · exact hne

theorem WellFormed.takes_offer {s : Stream} (h : s.WellFormed) (chunk : Bytes) :
    s.Takes chunk (sink.offer s chunk) :=
  h.takes_writeAll (Nat.le_refl _)

theorem Fits.wellFormed {s : Stream} {bytes : Bytes} (h : s.Fits bytes) : s.WellFormed := by
  refine ⟨h.moves, ?_⟩
  intro capacity hcapacity
  exact Nat.le_trans (Nat.le_add_right _ _) (h.room capacity hcapacity)

theorem Fits.exists_hasTaken {s : Stream} {bytes : Bytes} (h : s.Fits bytes) :
    ∃ next, sink.offer s bytes = (next, .ok ()) ∧ s.HasTaken bytes next := by
  have htakes := h.wellFormed.takes_offer bytes
  generalize sink.offer s bytes = result at htakes
  cases htakes with
  | all hall =>
      exact ⟨_, rfl, hall⟩
  | part hsplit hne hpart hfull =>
      rw [Full, hpart.capacity_eq] at hfull
      have hroom := h.room _ hfull
      have hrest := List.length_pos_iff.mpr hne
      rw [hpart.taken_eq, hsplit, List.length_append, List.length_append] at hroom
      omega

theorem Fits.exists_offer {s : Stream} {chunk : Bytes} {rest : List Bytes}
    (h : s.Fits (chunk :: rest).flatten) :
    ∃ next, sink.offer s chunk = (next, .ok ()) ∧ next.taken = s.taken ++ chunk ∧
      next.Fits rest.flatten := by
  rcases h with ⟨hmoves, hroom⟩
  rw [List.flatten_cons, List.length_append] at hroom
  have hchunk : s.Fits chunk := by
    constructor
    · exact hmoves
    · intro capacity hcapacity
      have h := hroom capacity hcapacity
      omega
  rcases hchunk.exists_hasTaken with ⟨next, hoffer, hnext⟩
  refine ⟨next, hoffer, hnext.taken_eq, hnext.wellFormed.moves, ?_⟩
  intro capacity hcapacity
  rw [hnext.capacity_eq] at hcapacity
  rw [hnext.taken_eq, List.length_append, Nat.add_assoc]
  exact hroom capacity hcapacity

theorem Fits.exists_accepts {s : Stream} {chunks : List Bytes} (h : s.Fits chunks.flatten) :
    ∃ final, sink.Accepts s chunks final ∧ final.taken = s.taken ++ chunks.flatten := by
  rw [← List.flatMap_id]
  exact Sink.exists_accepts taken id (fun s chunks => s.Fits chunks.flatten)
    (fun _ _ _ => Fits.exists_offer) s chunks h

end Stream

namespace Recorder

theorem exists_offer {recorder : Recorder} (hpatient : recorder.patience = none)
    (chunk : Bytes) :
    ∃ next, sink.offer recorder chunk = (next, .ok ()) ∧
      next.accepted = recorder.accepted ++ [chunk] ∧ next.patience = none := by
  refine ⟨{ recorder with collected := recorder.collected.append [chunk] }, ?_, ?_, hpatient⟩
  · simp [sink, offer, hpatient]
  · exact Log.toList_append _ _

theorem exists_accepts {recorder : Recorder} (hpatient : recorder.patience = none)
    (chunks : List Bytes) :
    ∃ final, sink.Accepts recorder chunks final ∧
      final.accepted = recorder.accepted ++ chunks := by
  have h := Sink.exists_accepts accepted (fun chunk => [chunk]) (fun r _ => r.patience = none)
    (fun _ chunk _ hpatient => exists_offer hpatient chunk) recorder chunks hpatient
  rw [List.flatMap_singleton'] at h
  exact h

end Recorder

/-!
# Unlimited sinks
-/

/-- A ready sink accepts whatever it is offered, adds it to its
content and stays ready. -/
structure Sink.Unlimited (sink : Sink σ ε) (Ready : σ → Prop) (content : σ → Bytes)
    : Prop where
  exists_offer : ∀ {state}, Ready state → ∀ chunk, ∃ next,
    sink.offer state chunk = (next, .ok ()) ∧
      content next = content state ++ chunk ∧ Ready next

theorem Sink.Unlimited.exists_accepts {sink : Sink σ ε} {Ready : σ → Prop}
    {content : σ → Bytes} (h : sink.Unlimited Ready content) {state : σ}
    (hready : Ready state) (chunks : List Bytes) :
    ∃ final, sink.Accepts state chunks final ∧
      content final = content state ++ chunks.flatten := by
  rw [← List.flatMap_id]
  exact Sink.exists_accepts content id (fun state _ => Ready state)
    (fun _ chunk _ hstate => h.exists_offer hstate chunk) state chunks hready

theorem Stream.unlimited :
    Stream.sink.Unlimited (fun s => s.step ≠ some 0 ∧ s.capacity = none) Stream.taken := by
  constructor
  rintro s ⟨hmoves, hcapacity⟩ chunk
  have hfits : s.Fits chunk := by
    refine ⟨hmoves, ?_⟩
    intro capacity h
    rw [hcapacity] at h
    cases h
  rcases hfits.exists_hasTaken with ⟨next, hoffer, hnext⟩
  refine ⟨next, hoffer, hnext.taken_eq, hnext.wellFormed.moves, ?_⟩
  rw [hnext.capacity_eq, hcapacity]

end Stencil
