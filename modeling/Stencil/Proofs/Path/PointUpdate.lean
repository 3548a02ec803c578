import Stencil.Proofs.Path.Assignment

/-!
# Assigning changes one place

After an assignment a look-up finds the stored value and what is inside it, the old values
at all places beside the path, and nothing new but the padding of arrays that had to grow.
-/

namespace Stencil
namespace Value

theorem follow?_graft?_append {v w : Value} {slot : Option Value} {steps : List Step}
    (h : graft? v slot steps = some w) (others : List Step) :
    w.follow? (steps ++ others) = v.follow? others := by
  induction steps generalizing slot w with
  | nil =>
      rw [graft?_nil] at h
      rw [Option.some.inj h, List.nil_append]
  | cons step rest ih =>
      cases step with
      | name name =>
          rcases graft?_name_eq_some h with ⟨d, x, _, hx, rfl⟩
          rw [List.cons_append, follow?_cons]
          by_cases hrest : rest = []
          · simp [hrest, member?]
          · simp [hrest, member?, Dict.get?_put, ih hx]
      | index i =>
          rcases graft?_index_eq_some h with ⟨items, x, _, hx, rfl⟩
          rw [List.cons_append, follow?_cons]
          simp [member?, ih hx]

end Value

namespace Path

/-- Neither list of steps leads through the place of the other. -/
def Apart (steps others : List Step) : Prop :=
  ¬ steps <+: others ∧ ¬ others <+: steps

/-- The place `others` lies below an index that `steps` goes through, in the same
array. -/
def IsPadding (steps others : List Step) : Prop :=
  ∃ front i j back, i < j ∧ steps = front ++ .index j :: back ∧ others = front ++ [.index i]

theorem Apart.exists_cons {step : Step} {rest others : List Step}
    (h : Apart (step :: rest) others) :
    ∃ other more, others = other :: more ∧ (other = step → Apart rest more) := by
  cases others with
  | nil =>
      exact absurd List.nil_prefix h.right
  | cons other more =>
      refine ⟨other, more, rfl, ?_⟩
      rintro rfl
      constructor
      · intro hprefix
        exact h.left (List.cons_prefix_cons.mpr ⟨rfl, hprefix⟩)
      · intro hprefix
        exact h.right (List.cons_prefix_cons.mpr ⟨rfl, hprefix⟩)

theorem IsPadding.cons {steps others : List Step} (h : IsPadding steps others) (step : Step) :
    IsPadding (step :: steps) (step :: others) := by
  rcases h with ⟨front, i, j, back, hlt, rfl, rfl⟩
  exact ⟨step :: front, i, j, back, hlt, rfl, rfl⟩

end Path

namespace Value

theorem bind_follow?_eq_of_getD {slot : Option Value} {fresh container : Value}
    (hslot : slot.getD fresh = container) {step : Step} (hfresh : fresh.member? step = .none)
    (rest : List Step) :
    slot.bind (·.follow? (step :: rest)) = container.follow? (step :: rest) := by
  cases slot with
  | none =>
      rw [Option.getD_none] at hslot
      rw [← hslot, follow?_cons, hfresh]
      rfl
  | some w =>
      rw [Option.getD_some] at hslot
      rw [hslot]
      rfl

theorem follow?_congr_member? {v w : Value} {step : Step} (h : v.member? step = w.member? step)
    (rest : List Step) : v.follow? (step :: rest) = w.follow? (step :: rest) := by
  rw [follow?_cons, follow?_cons, h]

theorem member?_replace_of_ne (d : Dict Value) {name : Bytes} (v : Value) {other : Step}
    (hne : other ≠ .name name) :
    (dict (d.replace name v)).member? other = (dict d).member? other := by
  cases other with
  | name key =>
      exact Dict.get?_replace_of_ne d v (by simpa using hne)
  | index i =>
      rfl

theorem member?_put_of_ne (d : Dict Value) {name : Bytes} (v : Value) {other : Step}
    (hne : other ≠ .name name) :
    (dict (d.put name v)).member? other = (dict d).member? other := by
  cases other with
  | name key =>
      have hkey : key ≠ name := by simpa using hne
      exact (Dict.get?_put d name key v).trans (if_neg hkey)
  | index i =>
      rfl

/-- Beside the steps a place keeps its value, unless it was missing and is now padding. -/
theorem follow?_graft?_apart {v w : Value} {slot : Option Value} {steps others : List Step}
    (h : graft? v slot steps = some w) (hapart : Path.Apart steps others) :
    w.follow? others = slot.bind (·.follow? others) ∨
      (slot.bind (·.follow? others) = .none ∧ w.follow? others = some .none ∧
        Path.IsPadding steps others) := by
  -- On the way to where the two paths part, each step passes from the slot
  -- to the slot behind it.
  induction steps generalizing slot w others with
  | nil =>
      exact absurd List.nil_prefix hapart.left
  | cons step rest ih =>
      rcases hapart.exists_cons with ⟨other, more, rfl, hmore⟩
      cases step with
      | name name =>
          rcases graft?_name_eq_some h with ⟨d, x, hslot, hx, rfl⟩
          rw [bind_follow?_eq_of_getD hslot (by cases other <;> rfl)]
          by_cases hother : other = .name name
          · subst hother
            have hrest : rest ≠ [] := by
              rintro rfl
              exact (hmore rfl).left List.nil_prefix
            have hnew : (dict (d.put name x)).follow? (.name name :: more) =
                x.follow? more := by
              simp [follow?_cons, member?, Dict.get?_put]
            rw [if_neg hrest, hnew, follow?_cons]
            rcases ih hx (hmore rfl) with hsame | ⟨hmissing, hnone, hpadding⟩
            · exact Or.inl hsame
            · exact Or.inr ⟨hmissing, hnone, hpadding.cons _⟩
          · left
            apply follow?_congr_member?
            split
            · exact member?_replace_of_ne d v hother
            · exact member?_put_of_ne d x hother
      | index i =>
          rcases graft?_index_eq_some h with ⟨items, x, hslot, hx, rfl⟩
          rw [bind_follow?_eq_of_getD hslot (by cases other <;> rfl)]
          cases other with
          | name name =>
              exact Or.inl rfl
          | index j =>
              rw [follow?_cons, follow?_cons, member?, member?]
              by_cases hj : j = i
              · subst hj
                rw [Items.getElem?_put_self]
                rcases ih hx (hmore rfl) with hsame | ⟨hmissing, hnone, hpadding⟩
                · exact Or.inl hsame
                · exact Or.inr ⟨hmissing, hnone, hpadding.cons _⟩
              · rcases Items.getElem?_put_or_padded items x hj with
                  hsame | ⟨hmissing, hnone, hlt⟩
                · rw [hsame]
                  exact Or.inl rfl
                · rw [hmissing, hnone]
                  cases more with
                  | nil =>
                      exact Or.inr ⟨rfl, rfl, [], j, i, rest, hlt, rfl, rfl⟩
                  | cons step more =>
                      left
                      cases step <;> rfl

end Value

/-!
# The theorem
-/

/-- Of all look-ups, an assignment changes those of its path and behind it, which find the
value and what is inside it, and those of array places that are filled up with `none`. -/
theorem assign_updates_one_place {ns ns' : Dict Value} {path : Path} {v : Value}
    (h : assign ns path v = (ns', .ok ())) :
    ∃ steps, Path.Spells path steps ∧
      lookup ns' path = .ok v ∧
      (∀ other otherSteps w, Path.Spells other otherSteps → Path.Apart steps otherSteps →
        lookup ns other = .ok w → lookup ns' other = .ok w) ∧
      (∀ other otherSteps e w, Path.Spells other otherSteps → Path.Apart steps otherSteps →
        lookup ns other = .error e → lookup ns' other = .ok w →
          w = .none ∧ Path.IsPadding steps otherSteps) ∧
      (∀ more moreSteps w, Path.Spells (path ++ more) (steps ++ moreSteps) →
        (lookup ns' (path ++ more) = .ok w ↔ v.follow? moreSteps = some w)) := by
  rcases (assign_eq_ok_iff ns ns' path v).mp h with ⟨steps, hspells, hgraft⟩
  refine ⟨steps, hspells, ?_, ?_, ?_, ?_⟩
  · have hfollow := Value.follow?_graft?_append hgraft []
    rw [List.append_nil] at hfollow
    exact (hspells.lookup_eq_ok_iff ns' v).mpr hfollow
  · intro other otherSteps w hother hapart hold
    have hfollow := (hother.lookup_eq_ok_iff ns w).mp hold
    apply (hother.lookup_eq_ok_iff ns' w).mpr
    rcases Value.follow?_graft?_apart hgraft hapart with hsame | ⟨hmissing, _, _⟩
    · exact hsame.trans hfollow
    · rw [Option.bind_some, hfollow] at hmissing
      cases hmissing
  · intro other otherSteps e w hother hapart hold hnew
    have hmissing := (hother.lookup_eq_error_iff ns).mp ⟨e, hold⟩
    have hfound := (hother.lookup_eq_ok_iff ns' w).mp hnew
    rcases Value.follow?_graft?_apart hgraft hapart with hsame | ⟨_, hnone, hpadding⟩
    · rw [Option.bind_some, hmissing, hfound] at hsame
      cases hsame
    · rw [hfound] at hnone
      exact ⟨Option.some.inj hnone, hpadding⟩
  · intro more moreSteps w hmore
    rw [hmore.lookup_eq_ok_iff ns' w, Value.follow?_graft?_append hgraft]

/-- The array `a` grows from one element to three. -/
theorem assign_behind_end_of_array :
    assign ⟨[(Bytes.ofText "a", .array [.int 1])]⟩ (Bytes.ofText "a[2].b") (.int 7) =
        (⟨[(Bytes.ofText "a", .array [.int 1, .none, .dict ⟨[(Bytes.ofText "b", .int 7)]⟩])]⟩,
          .ok ()) ∧
      lookup ⟨[(Bytes.ofText "a",
        .array [.int 1, .none, .dict ⟨[(Bytes.ofText "b", .int 7)]⟩])]⟩
        (Bytes.ofText "a[2].b") = .ok (.int 7) := by
  have h :
      assign ⟨[(Bytes.ofText "a", .array [.int 1])]⟩ (Bytes.ofText "a[2].b") (.int 7) =
        (⟨[(Bytes.ofText "a", .array [.int 1, .none, .dict ⟨[(Bytes.ofText "b", .int 7)]⟩])]⟩,
          .ok ()) := by
    rfl
  rcases assign_updates_one_place h with ⟨steps, _, hfound, _⟩
  exact ⟨h, hfound⟩

end Stencil
