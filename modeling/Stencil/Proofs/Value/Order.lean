import Stencil.Path.Lookup
import Stencil.Value.Equality
import Stencil.Value.Order

/-!
# The order of values is total

Values compare first by variant, then by content, and dictionaries by their addresses.
Whatever the addresses are, this is a total order of the values of a collection; values at
different places are equal in it only when no dictionary is in them.
-/

namespace Stencil

/-!
# Compared thrice

Three comparisons of three things fit together when the third one follows from the first
two, wherever these decide it.  Comparing by one aspect and then by another keeps that.
-/

/-- How the first of three compares to the second, the second to the third, and
the first to the third. -/
structure Composes (ab bc ac : Ordering) : Prop where
  of_eq_left : ab = .eq → ac = bc
  of_eq_right : bc = .eq → ac = ab
  of_same : ab = bc → ac = ab

namespace Composes

theorem of_compare {α : Type} [Ord α] [Std.TransOrd α] (a b c : α) :
    Composes (compare a b) (compare b c) (compare a c) := by
  constructor
  · exact Std.TransCmp.congr_left
  · intro h
    exact (Std.TransCmp.congr_right h).symm
  · intro h
    cases hab : compare a b with
    | lt =>
        rw [hab] at h
        exact Std.TransCmp.lt_trans hab h.symm
    | eq =>
        rw [hab] at h
        exact (Std.TransCmp.congr_left hab).trans h.symm
    | gt =>
        rw [hab] at h
        exact Std.TransCmp.gt_trans hab h.symm

theorem andThen {ab bc ac ab' bc' ac' : Ordering} (h : Composes ab bc ac)
    (h' : ab = .eq → bc = .eq → Composes ab' bc' ac') :
    Composes (ab.then ab') (bc.then bc') (ac.then ac') := by
  rcases h with ⟨hleft, hright, hsame⟩
  cases ab with
  | eq =>
      rw [hleft rfl]
      cases bc with
      | eq =>
          exact h' rfl rfl
      | lt =>
          exact ⟨fun _ => rfl, nofun, Eq.symm⟩
      | gt =>
          exact ⟨fun _ => rfl, nofun, Eq.symm⟩
  | lt =>
      cases bc with
      | eq =>
          rw [hright rfl]
          exact ⟨nofun, fun _ => rfl, fun _ => rfl⟩
      | lt =>
          rw [hsame rfl]
          exact ⟨nofun, nofun, fun _ => rfl⟩
      | gt =>
          exact ⟨nofun, nofun, nofun⟩
  | gt =>
      cases bc with
      | eq =>
          rw [hright rfl]
          exact ⟨nofun, fun _ => rfl, fun _ => rfl⟩
      | lt =>
          exact ⟨nofun, nofun, nofun⟩
      | gt =>
          rw [hsame rfl]
          exact ⟨nofun, nofun, fun _ => rfl⟩

theorem isLE {ab bc ac : Ordering} (h : Composes ab bc ac) (hab : ab.isLE = true)
    (hbc : bc.isLE = true) : ac.isLE = true := by
  cases ab with
  | eq =>
      rw [h.of_eq_left rfl]
      exact hbc
  | lt =>
      cases bc with
      | eq =>
          rw [h.of_eq_right rfl]
          rfl
      | lt =>
          rw [h.of_same rfl]
          rfl
      | gt =>
          cases hbc
  | gt =>
      cases hab

end Composes

namespace Value

/-!
# Variants
-/

theorem rank_injective {k l : Kind} (h : k.rank = l.rank) : k = l := by
  cases k <;> cases l <;> first | rfl | cases h

variable {ι : Type} [Ord ι]

/-- Values of different variants compare by variant, so that a comparison by variant in
front of it changes no comparison. -/
theorem compareStored_eq_then (address : Place → ι) (p q : Place) (a b : Value) :
    compareStored address p q a b =
      (compare a.kind.rank b.kind.rank).then (compareStored address p q a b) := by
  cases a <;> cases b <;> rfl

theorem kind_eq_of_compareStored {address : Place → ι} {p q : Place} {a b : Value}
    (h : compareStored address p q a b = .eq) : a.kind = b.kind := by
  rw [compareStored_eq_then, Ordering.then_eq_eq] at h
  exact rank_injective (Std.LawfulEqOrd.eq_of_compare h.left)

/-!
# The three comparisons of three values
-/

mutual

theorem composes_compareStored [Std.TransOrd ι] (address : Place → ι) :
    (p q r : Place) → (a b c : Value) →
      Composes (compareStored address p q a b) (compareStored address q r b c)
        (compareStored address p r a c) := by
  intro p q r a b c
  rw [compareStored_eq_then address p q, compareStored_eq_then address q r,
    compareStored_eq_then address p r]
  apply (Composes.of_compare _ _ _).andThen
  intro hab hbc
  have hb : b.kind = a.kind :=
    (rank_injective (Std.LawfulEqOrd.eq_of_compare hab)).symm
  have hc : c.kind = a.kind :=
    (rank_injective (Std.LawfulEqOrd.eq_of_compare hbc)).symm.trans hb
  cases a with
  | none =>
      cases b <;> cases hb
      cases c <;> cases hc
      exact ⟨fun _ => rfl, fun _ => rfl, fun _ => rfl⟩
  | int n =>
      cases b <;> cases hb
      cases c <;> cases hc
      exact Composes.of_compare _ _ _
  | string bytes =>
      cases b <;> cases hb
      cases c <;> cases hc
      exact Composes.of_compare _ _ _
  | array as =>
      cases b <;> cases hb
      cases c <;> cases hc
      apply (Composes.of_compare _ _ _).andThen
      intro hleft hright
      exact composes_compareItems address p q r 0 as _ _
        (Std.LawfulEqOrd.eq_of_compare hleft) (Std.LawfulEqOrd.eq_of_compare hright)
  | dict d =>
      cases b <;> cases hb
      cases c <;> cases hc
      exact Composes.of_compare _ _ _

theorem composes_compareItems [Std.TransOrd ι] (address : Place → ι) :
    (p q r : Place) → (i : Nat) → (as bs cs : List Value) →
      as.length = bs.length → bs.length = cs.length →
      Composes (compareItems address p q i as bs) (compareItems address q r i bs cs)
        (compareItems address p r i as cs) := by
  intro p q r i as bs cs hab hbc
  cases as with
  | nil =>
      cases bs with
      | nil =>
          exact ⟨fun _ => rfl, fun _ => rfl, fun _ => rfl⟩
      | cons b bs =>
          cases hab
  | cons a as =>
      cases bs with
      | nil =>
          cases hab
      | cons b bs =>
          cases cs with
          | nil =>
              cases hbc
          | cons c cs =>
              apply (composes_compareStored address _ _ _ a b c).andThen
              intro _ _
              exact composes_compareItems address p q r (i + 1) as bs cs
                (Nat.succ.inj hab) (Nat.succ.inj hbc)

end

/-!
# The other way round
-/

mutual

theorem compareStored_swap [Std.OrientedOrd ι] (address : Place → ι) :
    (p q : Place) → (a b : Value) →
      compareStored address q p b a = (compareStored address p q a b).swap := by
  intro p q a b
  rw [compareStored_eq_then address q p, compareStored_eq_then address p q, Ordering.swap_then,
    ← Std.OrientedCmp.eq_swap]
  by_cases hkind : b.kind = a.kind
  · congr 1
    cases a with
    | none =>
        cases b <;> cases hkind
        rfl
    | int n =>
        cases b <;> cases hkind
        rw [compareStored, compareStored, ← Std.OrientedCmp.eq_swap]
    | string bytes =>
        cases b <;> cases hkind
        rw [compareStored, compareStored, ← Std.OrientedCmp.eq_swap]
    | array as =>
        cases b <;> cases hkind
        rw [compareStored, compareStored, Ordering.swap_then, ← Std.OrientedCmp.eq_swap,
          compareItems_swap address p q 0 as]
    | dict d =>
        cases b <;> cases hkind
        rw [compareStored, compareStored, ← Std.OrientedCmp.eq_swap]
  · cases hrank : compare b.kind.rank a.kind.rank with
    | lt =>
        rfl
    | eq =>
        exact absurd (rank_injective (Std.LawfulEqOrd.eq_of_compare hrank)) hkind
    | gt =>
        rfl

theorem compareItems_swap [Std.OrientedOrd ι] (address : Place → ι) :
    (p q : Place) → (i : Nat) → (as bs : List Value) →
      compareItems address q p i bs as = (compareItems address p q i as bs).swap := by
  intro p q i as bs
  cases as with
  | nil =>
      cases bs <;> rfl
  | cons a as =>
      cases bs with
      | nil =>
          rfl
      | cons b bs =>
          rw [compareItems, compareItems, Ordering.swap_then, compareStored_swap address _ _ a,
            compareItems_swap address p q (i + 1) as]

end

/-!
# One value against itself
-/

mutual

theorem compareStored_self [Std.ReflOrd ι] (address : Place → ι) :
    (p : Place) → (a : Value) → compareStored address p p a a = .eq := by
  intro p a
  cases a with
  | none =>
      rfl
  | int n =>
      rw [compareStored, Std.compare_self]
  | string bytes =>
      rw [compareStored, Std.compare_self]
  | array as =>
      rw [compareStored, Std.compare_self]
      exact compareItems_self address p 0 as
  | dict d =>
      rw [compareStored, Std.compare_self]

theorem compareItems_self [Std.ReflOrd ι] (address : Place → ι) :
    (p : Place) → (i : Nat) → (as : List Value) → compareItems address p p i as as = .eq := by
  intro p i as
  cases as with
  | nil =>
      rfl
  | cons a as =>
      rw [compareItems, compareStored_self address _ a]
      exact compareItems_self address p (i + 1) as

end

end Value

end Stencil
