import Stencil.Proofs.Path.Grammar

/-!
# Looking up is following steps

A look-up succeeds exactly when its path is in the grammar and the steps that it spells
lead from the namespace to a value.
-/

namespace Stencil

namespace Value

@[simp]
theorem follow?_nil (v : Value) : v.follow? [] = some v := rfl

theorem follow?_cons (v : Value) (step : Step) (rest : List Step) :
    v.follow? (step :: rest) = (v.member? step).bind (·.follow? rest) := rfl

theorem follow?_concat (v : Value) (steps : List Step) (step : Step) :
    v.follow? (steps ++ [step]) = (v.follow? steps).bind (·.member? step) := by
  induction steps generalizing v with
  | nil =>
      rw [List.nil_append, follow?_cons, follow?_nil, Option.bind_some]
      cases v.member? step <;> rfl
  | cons other rest ih =>
      rw [List.cons_append, follow?_cons, follow?_cons, Option.bind_assoc]
      simp only [ih]

end Value

namespace Path

theorem find_eq_ok_iff (path : Path) (label : Bytes) (v w : Value) (segments : List Segment)
    (ending : Ending) :
    find path label v segments ending = .ok w ↔
      ending = .complete ∧ v.follow? (segments.map Segment.step) = some w := by
  induction segments generalizing label v with
  | nil =>
      cases ending with
      | complete =>
          simp [find]
      | stray offset =>
          simp [find]
      | badName start fault =>
          cases v <;> simp [find]
      | badIndex start offset fault =>
          cases v <;> simp [find]
  | cons segment rest ih =>
      cases segment with
      | name start name =>
          cases v with
          | dict d =>
              cases hget : d.get? name with
              | none =>
                  simp [find, hget, Segment.step, Value.follow?_cons, Value.member?]
              | some x =>
                  simp [find, hget, Segment.step, Value.follow?_cons, Value.member?, ih]
          | _ =>
              simp [find, Segment.step, Value.follow?_cons, Value.member?]
      | index start stop i =>
          cases v with
          | array items =>
              cases hget : items[i]? with
              | none =>
                  simp [find, hget, Segment.step, Value.follow?_cons, Value.member?]
              | some x =>
                  simp [find, hget, Segment.step, Value.follow?_cons, Value.member?, ih]
          | _ =>
              simp [find, Segment.step, Value.follow?_cons, Value.member?]

theorem Spells.lookup_eq_ok_iff {path : Path} {steps : List Step} (h : Spells path steps)
    (ns : Dict Value) (v : Value) :
    lookup ns path = .ok v ↔ (Value.dict ns).follow? steps = some v := by
  rcases (spells_iff_read path steps).mp h with ⟨hending, hsteps⟩
  rw [lookup, find_eq_ok_iff, ← hsteps]
  constructor
  · intro hfound
    exact hfound.right
  · intro hfollow
    exact ⟨hending, hfollow⟩

theorem Spells.lookup_eq_error_iff {path : Path} {steps : List Step} (h : Spells path steps)
    (ns : Dict Value) :
    (∃ e, lookup ns path = .error e) ↔ (Value.dict ns).follow? steps = none := by
  cases hfollow : (Value.dict ns).follow? steps with
  | some v =>
      have hok := (h.lookup_eq_ok_iff ns v).mpr hfollow
      simp [hok]
  | none =>
      cases hlookup : lookup ns path with
      | error e =>
          simp
      | ok v =>
          have hsome := (h.lookup_eq_ok_iff ns v).mp hlookup
          rw [hfollow] at hsome
          cases hsome

end Path

/-- A look-up succeeds exactly on the paths of the grammar whose steps lead somewhere. -/
theorem lookup_eq_ok_iff (ns : Dict Value) (path : Path) (v : Value) :
    lookup ns path = .ok v ↔
      ∃ steps, Path.Spells path steps ∧ (Value.dict ns).follow? steps = some v := by
  constructor
  · intro h
    have hfound := h
    rw [lookup, Path.find_eq_ok_iff] at hfound
    have hspells := (Path.spells_iff_read path path.read.steps).mpr ⟨hfound.left, rfl⟩
    exact ⟨_, hspells, hfound.right⟩
  · rintro ⟨steps, hspells, hfollow⟩
    exact (hspells.lookup_eq_ok_iff ns v).mpr hfollow

end Stencil
