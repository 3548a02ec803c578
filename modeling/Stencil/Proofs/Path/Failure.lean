import Stencil.Proofs.Path.Container
import Stencil.Proofs.Path.Faults

/-!
# How storing fails

Storing along a path fails at the end of what could be read of it or at a value of the
wrong kind.  The value to be stored has no part in that, so that a failure is a relation of
the path and what stands in the slot before and afterwards.
-/

namespace Stencil

namespace Path

def Segment.label : Segment → Bytes → Bytes
  | .name _ bytes, _ => bytes
  | .index _ _ _, label => label

/-- What is noticed where a value of the wrong kind, reached under `label`,
stands before a segment. -/
def Segment.mismatch (path : Path) (label : Bytes) : Segment → PathError
  | .name start _ => .noticed path start (.notADict .writing label)
  | .index _ stop _ => .noticed path stop (.notAnArray .writing label)

/-- Storing below a slot fails with an error and leaves the slot as given. -/
inductive Fails (path : Path) :
    Bytes → Option Value → List Segment → Ending → Option Value → PathError → Prop where
  | stray {label : Bytes} {slot : Option Value} {offset : Nat} :
      Fails path label slot [] (.stray offset) slot (.noticed path offset .strayByte)
  | badName {label : Bytes} {slot : Option Value} {start : Nat} {fault : PathFault}
      {d : Dict Value} :
      slot.getD (.dict .empty) = .dict d →
      Fails path label slot [] (.badName start fault) (some (.dict d))
        (.noticed path start fault)
  | badNameMismatch {label : Bytes} {w : Value} {start : Nat} {fault : PathFault} :
      (∀ d, w ≠ .dict d) →
      Fails path label (some w) [] (.badName start fault) (some w)
        (.noticed path start (.notADict .writing label))
  | badIndex {label : Bytes} {slot : Option Value} {start offset : Nat} {fault : PathFault} :
      Fails path label slot [] (.badIndex start offset fault) (some (slot.getD (.array [])))
        (.noticed path offset fault)
  | mismatch {label : Bytes} {w : Value} {segment : Segment} {rest : List Segment}
      {ending : Ending} :
      ¬ w.Admits segment.step →
      Fails path label (some w) (segment :: rest) ending (some w) (segment.mismatch path label)
  | within {label : Bytes} {slot after : Option Value} {c : Value} {segment : Segment}
      {rest : List Segment} {ending : Ending} {e : PathError} :
      slot.getD segment.step.container = c → c.Admits segment.step →
      Fails path (segment.label label) (c.member? segment.step) rest ending after e →
      Fails path label slot (segment :: rest) ending
        (some (after.elim c (c.place segment.step))) e

/-!
# Storing step by step
-/

theorem Storable.set_eq {i : Nat} (h : Storable (.index i)) (items : List Value) (v : Value) :
    Items.set items i v = (Items.put items i v, .ok ()) :=
  (Items.set_eq_ok_iff items _ i v).mpr ⟨h, rfl⟩

theorem store_mismatch (path : Path) (v : Value) (label : Bytes) {w : Value}
    {segment : Segment} (h : ¬ w.Admits segment.step) (rest : List Segment) (ending : Ending) :
    store path v label (some w) (segment :: rest) ending =
      (some w, .error (segment.mismatch path label)) := by
  cases segment with
  | name start name =>
      cases w with
      | dict d =>
          exact absurd trivial h
      | _ =>
          rfl
  | index start stop i =>
      cases w with
      | array items =>
          exact absurd trivial h
      | _ =>
          rfl

theorem store_within (path : Path) (v : Value) (label : Bytes) {slot : Option Value}
    {c : Value} {segment : Segment} (hslot : slot.getD segment.step.container = c)
    (hadmits : c.Admits segment.step) (hstorable : Storable segment.step) {rest : List Segment}
    {ending : Ending} (hmore : ¬ (rest = [] ∧ ending = .complete)) :
    store path v label slot (segment :: rest) ending =
      let stored := store path v (segment.label label) (c.member? segment.step) rest ending
      (some (stored.1.elim c (c.place segment.step)), stored.2) := by
  cases segment with
  | name start name =>
      cases c with
      | dict d =>
          have hd : slot.getD (.dict .empty) = .dict d := hslot
          simp only [store, hd, if_neg hmore, Segment.label, Segment.step, Value.member?]
          rcases store path v name (d.get? name) rest ending with ⟨_ | w, outcome⟩
          · rfl
          · rfl
      | _ =>
          cases hadmits
  | index start stop i =>
      cases c with
      | array items =>
          have hitems : slot.getD (.array []) = .array items := hslot
          simp only [store, hitems, Segment.label, Segment.step, Value.member?]
          have hset := Storable.set_eq hstorable items
          rcases store path v label items[i]? rest ending with ⟨_ | w, outcome⟩
          · rfl
          · simp only [hset]
            rfl
      | _ =>
          cases hadmits

theorem store_last (path : Path) (v : Value) (label : Bytes) {slot : Option Value}
    {segment : Segment} (hadmits : (slot.getD segment.step.container).Admits segment.step)
    (hstorable : Storable segment.step) :
    (store path v label slot [segment] .complete).2 = .ok () := by
  cases segment with
  | name start name =>
      rcases hadmits.exists_container with ⟨d, _, hd, _⟩ | ⟨_, _, _, hstep⟩
      · have hslot : slot.getD (.dict .empty) = .dict d := hd
        simp [store, hslot]
      · cases hstep
  | index start stop i =>
      rcases hadmits.exists_container with ⟨_, _, _, hstep⟩ | ⟨items, _, hitems, _⟩
      · cases hstep
      · have hslot : slot.getD (.array []) = .array items := hitems
        have hset := Storable.set_eq hstorable items v
        simp [store, hslot, hset]

/-!
# Storing and failing
-/

theorem admits_or_mismatch (slot : Option Value) (step : Step) :
    (slot.getD step.container).Admits step ∨ ∃ w, slot = some w ∧ ¬ w.Admits step := by
  cases slot with
  | none =>
      exact Or.inl (Value.admits_container step)
  | some w =>
      by_cases h : w.Admits step
      · exact Or.inl h
      · exact Or.inr ⟨w, rfl, h⟩

theorem Fails.not_complete {path : Path} {label : Bytes} {slot after : Option Value}
    {rest : List Segment} {ending : Ending} {e : PathError}
    (h : Fails path label slot rest ending after e) : ¬ (rest = [] ∧ ending = .complete) := by
  rintro ⟨rfl, rfl⟩
  cases h

theorem fails_of_store {path : Path} {v : Value} {label : Bytes} {slot after : Option Value}
    {segments : List Segment} {ending : Ending} {e : PathError}
    (hstorable : ∀ segment ∈ segments, Storable segment.step)
    (h : store path v label slot segments ending = (after, .error e)) :
    Fails path label slot segments ending after e := by
  induction segments generalizing label slot after with
  | nil =>
      cases ending with
      | complete =>
          cases h
      | stray offset =>
          cases h
          exact Fails.stray
      | badName start fault =>
          by_cases hdict : ∃ d, slot.getD (.dict .empty) = .dict d
          · rcases hdict with ⟨d, hd⟩
            simp only [store, hd] at h
            cases h
            exact Fails.badName hd
          · rw [not_exists] at hdict
            cases slot with
            | none =>
                exact absurd rfl (hdict .empty)
            | some w =>
                cases w with
                | dict d =>
                    exact absurd rfl (hdict d)
                | _ =>
                    cases h
                    exact Fails.badNameMismatch hdict
      | badIndex start offset fault =>
          cases h
          exact Fails.badIndex
  | cons segment rest ih =>
      rw [List.forall_mem_cons] at hstorable
      rcases admits_or_mismatch slot segment.step with hadmits | ⟨w, rfl, hmismatch⟩
      · by_cases hlast : rest = [] ∧ ending = .complete
        · rcases hlast with ⟨rfl, rfl⟩
          have hok := store_last path v label hadmits hstorable.left
          rw [h] at hok
          cases hok
        · rw [store_within path v label rfl hadmits hstorable.left hlast] at h
          rcases hstored : store path v (segment.label label)
            ((slot.getD segment.step.container).member? segment.step) rest ending with
              ⟨after', outcome⟩
          rw [hstored] at h
          cases h
          exact Fails.within rfl hadmits (ih hstorable.right hstored)
      · rw [store_mismatch path v label hmismatch] at h
        cases h
        exact Fails.mismatch hmismatch

theorem store_of_fails {path : Path} {label : Bytes} {slot after : Option Value}
    {segments : List Segment} {ending : Ending} {e : PathError}
    (hstorable : ∀ segment ∈ segments, Storable segment.step)
    (h : Fails path label slot segments ending after e) (v : Value) :
    store path v label slot segments ending = (after, .error e) := by
  induction h with
  | stray =>
      rfl
  | badName hslot =>
      rw [store, hslot]
  | badNameMismatch hdict =>
      rename_i w start fault
      cases w with
      | dict d =>
          exact absurd rfl (hdict d)
      | _ =>
          rfl
  | badIndex =>
      rfl
  | mismatch hmismatch =>
      exact store_mismatch path v _ hmismatch _ _
  | within hslot hadmits hfails ih =>
      rw [List.forall_mem_cons] at hstorable
      rw [store_within path v _ hslot hadmits hstorable.left hfails.not_complete,
        ih hstorable.right]

theorem Fails.exists_dict {path : Path} {label : Bytes} {d : Dict Value} {after : Option Value}
    {segments : List Segment} {ending : Ending} {e : PathError}
    (h : Fails path label (some (.dict d)) segments ending after e) :
    ∃ d', after = some (.dict d') := by
  cases h with
  | stray =>
      exact ⟨d, rfl⟩
  | badName _ =>
      exact ⟨_, rfl⟩
  | badNameMismatch _ =>
      exact ⟨d, rfl⟩
  | badIndex =>
      exact ⟨d, rfl⟩
  | mismatch _ =>
      exact ⟨d, rfl⟩
  | @within _ _ after c segment _ _ _ hslot hadmits _ =>
      have hc : c = .dict d := hslot.symm
      subst hc
      cases after with
      | none =>
          exact ⟨d, rfl⟩
      | some w =>
          rcases hadmits.exists_container with ⟨_, name, _, hstep⟩ | ⟨_, _, hitems, _⟩
          · exact ⟨d.put name w, by rw [hstep]; rfl⟩
          · cases hitems

end Path

/-- A failed assignment hands the value back, and fails where storing
below the namespace does. -/
theorem assign_eq_error_iff (ns ns' : Dict Value) (path : Path) (v : Value) (e : Unassigned) :
    assign ns path v = (ns', .error e) ↔
      e.value = v ∧
        Path.Fails path [] (some (.dict ns)) path.read.segments path.read.ending
          (some (.dict ns')) e.error := by
  have hstorable := path.sound_read.storable
  constructor
  · intro h
    rcases hstored : path.store v [] (some (.dict ns)) path.read.segments path.read.ending with
      ⟨after, fault | _⟩
    · have hfails := Path.fails_of_store hstorable hstored
      rcases hfails.exists_dict with ⟨d, rfl⟩
      simp only [assign, hstored] at h
      cases h
      exact ⟨rfl, hfails⟩
    · have hsecond := congrArg Prod.snd h
      simp only [assign, hstored] at hsecond
      split at hsecond
      · cases hsecond
      · cases hsecond
  · rintro ⟨rfl, hfails⟩
    simp only [assign, Path.store_of_fails hstorable hfails]
    rfl

end Stencil
