/-!
# Computations that may fail

A computation in two parts yields a result exactly when both parts do, and so does a fold.
-/

namespace Stencil

variable {α β ε ζ : Type} {f : β → α → Except ε β}

theorem bind_eq_ok_iff (x : Except ε α) (next : α → Except ε β) (b : β) :
    x >>= next = .ok b ↔ ∃ a, x = .ok a ∧ next a = .ok b := by
  cases x with
  | error e =>
      constructor
      · intro h
        cases h
      · rintro ⟨a, ha, _⟩
        cases ha
  | ok a =>
      constructor
      · intro h
        exact ⟨a, rfl, h⟩
      · rintro ⟨other, hother, h⟩
        cases hother
        exact h

theorem bind_eq_error_iff (x : Except ε α) (next : α → Except ε β) (e : ε) :
    x >>= next = .error e ↔ x = .error e ∨ ∃ a, x = .ok a ∧ next a = .error e := by
  cases x with
  | error other =>
      constructor
      · intro h
        cases h
        exact Or.inl rfl
      · intro h
        rcases h with h | ⟨a, ha, _⟩
        · cases h
          rfl
        · cases ha
  | ok a =>
      constructor
      · intro h
        exact Or.inr ⟨a, rfl, h⟩
      · intro h
        rcases h with h | ⟨other, hother, h⟩
        · cases h
        · cases hother
          exact h

theorem mapError_eq_ok_iff (x : Except ε α) (g : ε → ζ) (a : α) :
    x.mapError g = .ok a ↔ x = .ok a := by
  cases x with
  | error e =>
      constructor
      · intro h
        cases h
      · intro h
        cases h
  | ok other =>
      constructor
      · intro h
        cases h
        rfl
      · intro h
        cases h
        rfl

theorem mapError_eq_error_iff (x : Except ε α) (g : ε → ζ) (e : ζ) :
    x.mapError g = .error e ↔ ∃ cause, x = .error cause ∧ g cause = e := by
  cases x with
  | error cause =>
      constructor
      · intro h
        cases h
        exact ⟨cause, rfl, rfl⟩
      · intro h
        rcases h with ⟨other, hother, rfl⟩
        cases hother
        rfl
  | ok a =>
      constructor
      · intro h
        cases h
      · intro h
        rcases h with ⟨other, hother, _⟩
        cases hother

theorem map_eq_ok_iff (x : Except ε α) (g : α → β) (b : β) :
    x.map g = .ok b ↔ ∃ a, x = .ok a ∧ g a = b := by
  cases x with
  | error e =>
      constructor
      · intro h
        cases h
      · intro h
        rcases h with ⟨a, ha, _⟩
        cases ha
  | ok a =>
      constructor
      · intro h
        cases h
        exact ⟨a, rfl, rfl⟩
      · intro h
        rcases h with ⟨other, hother, heq⟩
        cases hother
        rw [← heq]
        rfl

theorem exists_map_eq_ok_iff (x : Except ε α) (g : α → β) :
    (∃ b, x.map g = .ok b) ↔ ∃ a, x = .ok a := by
  constructor
  · intro h
    rcases h with ⟨b, hb⟩
    rcases (map_eq_ok_iff x g b).mp hb with ⟨a, ha, _⟩
    exact ⟨a, ha⟩
  · intro h
    rcases h with ⟨a, ha⟩
    exact ⟨g a, (map_eq_ok_iff x g (g a)).mpr ⟨a, ha, rfl⟩⟩

theorem foldlM_cons_eq_ok_iff (a : α) (items : List α) (b b' : β) :
    (a :: items).foldlM f b = .ok b' ↔
      ∃ next, f b a = .ok next ∧ items.foldlM f next = .ok b' := by
  rw [List.foldlM_cons, bind_eq_ok_iff]

theorem foldlM_cons_eq_error_iff (a : α) (items : List α) (b : β) (e : ε) :
    (a :: items).foldlM f b = .error e ↔
      f b a = .error e ∨ ∃ next, f b a = .ok next ∧ items.foldlM f next = .error e := by
  rw [List.foldlM_cons, bind_eq_error_iff]

theorem foldlM_append_eq_ok_iff (front back : List α) (b b' : β) :
    (front ++ back).foldlM f b = .ok b' ↔
      ∃ mid, front.foldlM f b = .ok mid ∧ back.foldlM f mid = .ok b' := by
  rw [List.foldlM_append, bind_eq_ok_iff]

theorem foldlM_cons_of_ok {a : α} {items : List α} {b b' : β} (h : f b a = .ok b') :
    (a :: items).foldlM f b = items.foldlM f b' := by
  rw [List.foldlM_cons, h]
  rfl

theorem foldlM_append_of_ok {front back : List α} {b b' : β} (h : front.foldlM f b = .ok b') :
    (front ++ back).foldlM f b = back.foldlM f b' := by
  rw [List.foldlM_append, h]
  rfl

end Stencil
