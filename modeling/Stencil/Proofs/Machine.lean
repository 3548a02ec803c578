import Mathlib.Logic.Relation

/-!
# Machines that advance

A machine reads a text step by step and stands at a position in it.  One that moves on
with every step comes to a halt.  What has to be known of a machine for that is said of
single steps, and holds of a whole run by induction.
-/

namespace Stencil

inductive Move (σ α : Type) where
  | onward (next : σ)
  | halt (position : Nat) (result : α)

/-- A move from a position leads further on, into states of an invariant, or comes to the
result within a text of the given length. -/
inductive Move.Advances {σ α : Type} (position : σ → Nat) (length : Nat) (Inv : σ → Prop)
    (result : α) (start : Nat) : Move σ α → Prop where
  | onward {next : σ} :
      Inv next → start < position next →
      Advances position length Inv result start (.onward next)
  | halt {stop : Nat} :
      start ≤ stop → stop ≤ length →
      Advances position length Inv result start (.halt stop result)

theorem Move.Advances.of_le {σ α : Type} {position : σ → Nat} {length : Nat}
    {Inv : σ → Prop} {result : α} {start later : Nat} {move : Move σ α}
    (h : move.Advances position length Inv result later) (hle : start ≤ later)
    : move.Advances position length Inv result start := by
  cases h with
  | onward hinv hlt =>
      exact .onward hinv (Nat.lt_of_le_of_lt hle hlt)
  | halt hstop hwithin =>
      exact .halt (Nat.le_trans hle hstop) hwithin

structure Machine (σ α : Type) where
  step : σ → Option (Move σ α)
  position : σ → Nat

namespace Machine

variable {σ α : Type}

def Reaches (m : Machine σ α) : σ → σ → Prop :=
  Relation.ReflTransGen fun s next => m.step s = some (.onward next)

/-- A run from `start` asks for nothing out of range, moves on with every step, stays
within a text of the given length, and comes to the result. -/
structure RunsWithin (m : Machine σ α) (length : Nat) (start : σ) (result : α) : Prop where
  bounded : ∀ s, m.Reaches start s → m.position s ≤ length
  inRange : ∀ s, m.Reaches start s → m.step s ≠ none
  advances : ∀ s next, m.Reaches start s → m.step s = some (.onward next) →
    m.position s < m.position next
  ends : ∀ s position outcome, m.Reaches start s → m.step s = some (.halt position outcome) →
    m.position s ≤ position ∧ position ≤ length ∧ outcome = result
  halts : ∃ s position, m.Reaches start s ∧ m.step s = some (.halt position result)

def Advances (m : Machine σ α) (length : Nat) (Inv : σ → Prop) (result : α) (s : σ) : Prop :=
  ∃ move, m.step s = some move ∧ move.Advances m.position length Inv result (m.position s)

variable {m : Machine σ α} {length : Nat} {Inv : σ → Prop} {result : α}

theorem Advances.onward {s next : σ} (h : m.Advances length Inv result s)
    (hmove : m.step s = some (.onward next)) : Inv next ∧ m.position s < m.position next := by
  rcases h with ⟨move, hstep, hadvances⟩
  rw [hmove] at hstep
  cases hstep
  cases hadvances with
  | onward hinv hlt =>
      exact ⟨hinv, hlt⟩

theorem Advances.halt {s : σ} {position : Nat} {outcome : α}
    (h : m.Advances length Inv result s) (hmove : m.step s = some (.halt position outcome)) :
    m.position s ≤ position ∧ position ≤ length ∧ outcome = result := by
  rcases h with ⟨move, hstep, hadvances⟩
  rw [hmove] at hstep
  cases hstep
  cases hadvances with
  | halt hle hwithin =>
      exact ⟨hle, hwithin, rfl⟩

theorem Reaches.invariant (hstep : ∀ s, Inv s → m.Advances length Inv result s) {start s : σ}
    (h : m.Reaches start s) (hstart : Inv start) : Inv s := by
  induction h with
  | refl =>
      exact hstart
  | tail _ hmove ih =>
      exact ((hstep _ ih).onward hmove).left

theorem exists_halt (hbounded : ∀ s, Inv s → m.position s ≤ length)
    (hstep : ∀ s, Inv s → m.Advances length Inv result s) (s : σ) (hs : Inv s) :
    ∃ last position, m.Reaches s last ∧ m.step last = some (.halt position result) := by
  rcases hstep s hs with ⟨move, hmove, hadvances⟩
  cases hadvances with
  | @onward next hinv hlt =>
      have hle := hbounded next hinv
      rcases exists_halt hbounded hstep next hinv with ⟨last, position, hreaches, hhalt⟩
      exact ⟨last, position, Relation.ReflTransGen.head hmove hreaches, hhalt⟩
  | @halt position _ _ =>
      exact ⟨s, position, Relation.ReflTransGen.refl, hmove⟩
termination_by length - m.position s

/-- A machine that keeps an invariant with every step, and moves on,
does so on its whole run. -/
theorem runsWithin (Inv : σ → Prop) (hbounded : ∀ s, Inv s → m.position s ≤ length)
    (hstep : ∀ s, Inv s → m.Advances length Inv result s) {start : σ} (hstart : Inv start) :
    m.RunsWithin length start result := by
  have hinv := fun s (h : m.Reaches start s) => h.invariant hstep hstart
  constructor
  · intro s h
    exact hbounded s (hinv s h)
  · intro s h hnone
    rcases hstep s (hinv s h) with ⟨move, hmove, _⟩
    rw [hnone] at hmove
    cases hmove
  · intro s next h hmove
    exact ((hstep s (hinv s h)).onward hmove).right
  · intro s position outcome h hmove
    exact (hstep s (hinv s h)).halt hmove
  · exact exists_halt hbounded hstep start hstart

end Machine
end Stencil
