import Stencil.Proofs.Path.PointUpdate

/-!
# Containers on the way

A name leads into a dictionary and an index into an array.  Whatever holds of storing at
either is said of a step and the container that admits it.
-/

namespace Stencil

/-!
# Storing at an index twice
-/

namespace Items

theorem length_put (items : List Value) (index : Nat) (v : Value) :
    (put items index v).length = max items.length (index + 1) := by
  unfold put
  split
  · rw [List.length_set]
    omega
  · simp only [List.length_append, List.length_replicate, List.length_singleton]
    omega

theorem put_put (items : List Value) (index : Nat) (earlier v : Value) :
    put (put items index earlier) index v = put items index v := by
  apply List.ext_getElem?
  intro other
  by_cases hother : other = index
  · rw [hother, getElem?_put_self, getElem?_put_self]
  · rw [getElem?_put_of_ne _ v hother, getElem?_put_of_ne items v hother, length_put,
      getElem?_put_of_ne items earlier hother]
    -- An index below the new length is an old one or one that has been filled up.
    grind

theorem exists_element {items : List Value} {index : Nat} {v : Value}
    (h : items[index]? = some v) :
    ∃ before behind, items = before ++ v :: behind ∧ before.length = index := by
  rcases List.getElem?_eq_some_iff.mp h with ⟨hindex, rfl⟩
  refine ⟨items.take index, items.drop (index + 1), ?_,
    List.length_take_of_le (Nat.le_of_lt hindex)⟩
  rw [List.getElem_cons_drop, List.take_append_drop]

theorem put_element (before behind : List Value) (earlier v : Value) :
    put (before ++ earlier :: behind) before.length v = before ++ v :: behind := by
  rw [put, if_pos, List.set_append_right _ _ (Nat.le_refl _), Nat.sub_self, List.set_cons_zero]
  rw [List.length_append, List.length_cons]
  omega

theorem put_self {items : List Value} {index : Nat} {v : Value} (h : items[index]? = some v) :
    put items index v = items := by
  rcases exists_element h with ⟨before, behind, rfl, rfl⟩
  exact put_element before behind v v

end Items

/-!
# Steps and containers
-/

def Step.container : Step → Value
  | .name _ => .dict .empty
  | .index _ => .array []

namespace Value

def Admits : Value → Step → Prop
  | .dict _, .name _ => True
  | .array _, .index _ => True
  | _, _ => False

/-- The container with `w` as the member that a step selects, in the
place of an earlier one. -/
def place : Value → Step → Value → Value
  | .dict d, .name name, w => .dict (d.put name w)
  | .array items, .index i, w => .array (Items.put items i w)
  | c, _, _ => c

theorem admits_container (step : Step) : step.container.Admits step := by
  cases step with
  | name name =>
      trivial
  | index i =>
      trivial

theorem member?_container (step other : Step) : step.container.member? other = .none := by
  cases step with
  | name name =>
      cases other with
      | name key =>
          rfl
      | index i =>
          rfl
  | index i =>
      cases other with
      | name key =>
          rfl
      | index j =>
          rfl

theorem Admits.exists_container {c : Value} {step : Step} (h : c.Admits step) :
    (∃ d name, c = .dict d ∧ step = .name name) ∨
      (∃ items i, c = .array items ∧ step = .index i) := by
  cases c with
  | dict d =>
      cases step with
      | name name =>
          exact Or.inl ⟨d, name, rfl, rfl⟩
      | index i =>
          cases h
  | array items =>
      cases step with
      | name name =>
          cases h
      | index i =>
          exact Or.inr ⟨items, i, rfl, rfl⟩
  | none =>
      cases h
  | int n =>
      cases h
  | string bytes =>
      cases h

/-!
# Storing a member
-/

theorem place_of_not_admits {c : Value} {step : Step} (h : ¬ c.Admits step) (w : Value) :
    c.place step w = c := by
  unfold place
  split
  · exact absurd trivial h
  · exact absurd trivial h
  · rfl

theorem Admits.place {c : Value} {step : Step} (h : c.Admits step) (w : Value) :
    (c.place step w).Admits step := by
  rcases h.exists_container with ⟨d, name, rfl, rfl⟩ | ⟨items, i, rfl, rfl⟩
  · trivial
  · trivial

theorem Admits.member?_place {c : Value} {step : Step} (h : c.Admits step) (w : Value) :
    (c.place step w).member? step = some w := by
  rcases h.exists_container with ⟨d, name, rfl, rfl⟩ | ⟨items, i, rfl, rfl⟩
  · exact (Dict.get?_put d name name w).trans (if_pos rfl)
  · exact Items.getElem?_put_self items i w

theorem member?_place_of_ne (c : Value) {step other : Step} (hne : other ≠ step) (w : Value) :
    (c.place step w).member? other = c.member? other ∨
      (c.member? other = .none ∧ (c.place step w).member? other = some .none) := by
  by_cases h : c.Admits step
  · rcases h.exists_container with ⟨d, name, rfl, rfl⟩ | ⟨items, i, rfl, rfl⟩
    · exact Or.inl (member?_put_of_ne d w hne)
    · cases other with
      | name key =>
          exact Or.inl rfl
      | index j =>
          have hindex : j ≠ i := by simpa using hne
          rcases Items.getElem?_put_or_padded items w hindex with hsame | ⟨hmissing, hnone, _⟩
          · exact Or.inl hsame
          · exact Or.inr ⟨hmissing, hnone⟩
  · rw [place_of_not_admits h]
    exact Or.inl rfl

theorem place_place (c : Value) (step : Step) (earlier w : Value) :
    (c.place step earlier).place step w = c.place step w := by
  by_cases h : c.Admits step
  · rcases h.exists_container with ⟨d, name, rfl, rfl⟩ | ⟨items, i, rfl, rfl⟩
    · exact congrArg Value.dict (Dict.put_put d name earlier w)
    · exact congrArg Value.array (Items.put_put items i earlier w)
  · rw [place_of_not_admits h, place_of_not_admits h]

end Value
end Stencil
