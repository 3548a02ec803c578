import Stencil.Dict.Lemmas
import Stencil.Value.Access

/-!
# Refused operations

When an operation on a value fails.  Whatever it would change is looked at before
anything is changed, so that a failure leaves the receiver as it was and hands
back what was to be stored.
-/

namespace Stencil

/-- The operation fails just under a condition, and leaves its receiver as it was then. -/
structure FailsIff {α ε : Type} (attempt : α × Except ε Unit) (receiver : α)
    (condition : Prop) :
    Prop where
  fails : (∃ e, attempt.2 = .error e) ↔ condition
  unchanged : ∀ e, attempt.2 = .error e → attempt.1 = receiver

/-- An operation that was to store `v` hands it back as well. -/
structure RefusedIff {α : Type} (attempt : α × Except Rejected Unit) (receiver : α) (v : Value)
    (condition : Prop) : Prop extends FailsIff attempt receiver condition where
  returned : ∀ r, attempt.2 = .error r → r.value = v

theorem FailsIff.of_cases {α ε : Type} {attempt : α × Except ε Unit} {receiver : α}
    {condition : Prop} (hfails : condition → ∃ e, attempt = (receiver, .error e))
    (hsucceeds : ¬ condition → attempt.2 = .ok ()) : FailsIff attempt receiver condition := by
  by_cases h : condition
  · rcases hfails h with ⟨e, rfl⟩
    exact ⟨iff_of_true ⟨e, rfl⟩ h, fun _ _ => rfl⟩
  · have hok := hsucceeds h
    constructor
    · apply iff_of_false _ h
      intro hfailed
      rcases hfailed with ⟨e, he⟩
      rw [hok] at he
      cases he
    · intro e he
      rw [hok] at he
      cases he

theorem FailsIff.receiver_of {α ε : Type} {attempt : α × Except ε Unit} {receiver : α}
    {condition : Prop} (h : FailsIff attempt receiver condition) (hcondition : condition) :
    attempt.1 = receiver := by
  rcases h.fails.mpr hcondition with ⟨e, he⟩
  exact h.unchanged e he

namespace RefusedIff

variable {α : Type} {attempt : α × Except Rejected Unit} {receiver : α} {v : Value}
    {condition : Prop}

theorem of_cases (hrefused : condition → ∃ e, attempt = (receiver, .error ⟨e, v⟩))
    (haccepted : ¬ condition → attempt.2 = .ok ()) :
    RefusedIff attempt receiver v condition where
  toFailsIff := FailsIff.of_cases (fun h => ⟨_, (hrefused h).choose_spec⟩) haccepted
  returned r hr := by
    by_cases h : condition
    · rcases hrefused h with ⟨e, rfl⟩
      cases hr
      rfl
    · rw [haccepted h] at hr
      cases hr

theorem accepted (h : RefusedIff attempt receiver v condition) :
    attempt.2 = .ok () ↔ ¬ condition := by
  rw [← h.fails]
  cases attempt.2 with
  | error r =>
      apply iff_of_false
      · exact nofun
      · intro hnot
        exact hnot ⟨r, rfl⟩
  | ok done =>
      exact iff_of_true rfl nofun

theorem congr {condition' : Prop} (h : RefusedIff attempt receiver v condition)
    (hcondition : condition ↔ condition') : RefusedIff attempt receiver v condition' :=
  ⟨⟨h.fails.trans hcondition, h.unchanged⟩, h.returned⟩

end RefusedIff

/-!
# Sums
-/

namespace Value

theorem fitsInt64_iff (i : Int) :
    Number.fitsInt64 i = true ↔ -(Number.signedBound : Int) ≤ i ∧ i < Number.signedBound := by
  rw [Number.fitsInt64, Bool.and_eq_true, decide_eq_true_iff, decide_eq_true_iff]

theorem toInt_add_of_fits {n addend : Int64}
    (h : Number.fitsInt64 (n.toInt + addend.toInt) = true) :
    (n + addend).toInt = n.toInt + addend.toInt := by
  rcases (fitsInt64_iff _).mp h with ⟨hlower, hupper⟩
  rw [← Int64.toInt_ofInt_of_le hlower hupper, Int64.ofInt_add, Int64.ofInt_toInt,
    Int64.ofInt_toInt]

theorem addInt_of_fits {n addend : Int64}
    (h : Number.fitsInt64 (n.toInt + addend.toInt) = true) :
    (Value.int n).addInt addend = (.int (n + addend), .ok ()) :=
  if_pos h

theorem addInt_failsIff (v : Value) (addend : Int64) :
    FailsIff (v.addInt addend) v
      (∀ n, v = .int n →
        ¬ (-(Number.signedBound : Int) ≤ n.toInt + addend.toInt ∧
          n.toInt + addend.toInt < Number.signedBound)) := by
  cases v with
  | int n =>
      have hcondition : (∀ m, Value.int n = .int m →
          ¬ (-(Number.signedBound : Int) ≤ m.toInt + addend.toInt ∧
            m.toInt + addend.toInt < Number.signedBound)) ↔
          ¬ Number.fitsInt64 (n.toInt + addend.toInt) = true := by
        rw [fitsInt64_iff]
        constructor
        · intro h
          exact h n rfl
        · intro h m hm
          cases hm
          exact h
      rw [hcondition]
      apply FailsIff.of_cases
      · intro h
        exact ⟨_, if_neg h⟩
      · intro h
        rw [addInt_of_fits (Classical.not_not.mp h)]
  | _ =>
      apply FailsIff.of_cases
      · intro _
        exact ⟨_, rfl⟩
      · intro h
        exact absurd nofun h

theorem addInt_of_ok {v : Value} {addend : Int64} (h : (v.addInt addend).2 = .ok ()) :
    ∃ n sum, v = .int n ∧ (v.addInt addend).1 = .int sum ∧
      sum.toInt = n.toInt + addend.toInt := by
  cases v with
  | int n =>
      by_cases hfits : Number.fitsInt64 (n.toInt + addend.toInt) = true
      · rw [addInt_of_fits hfits]
        exact ⟨n, n + addend, rfl, rfl, toInt_add_of_fits hfits⟩
      · rw [addInt, if_neg hfits] at h
        cases h
  | _ =>
      cases h

end Value

/-!
# Arrays
-/

namespace Items

/-- No array is so long that the number of elements wanted would have to be
capped below the bound. -/
theorem grow_eq_ok_iff (items : List Value) (additional : Nat) :
    grow items additional = .ok () ↔ items.length + additional ≤ maxArrayLength := by
  have hcap : maxArrayLength < maxCount := by
    decide
  have hwanted : maxArrayLength < min (items.length + additional) maxCount ↔
      maxArrayLength < items.length + additional := by
    rw [Nat.lt_min, and_iff_left hcap]
  simp only [grow, hwanted, ← Nat.not_lt]
  split
  · rename_i hlong
    exact iff_of_false nofun (not_not_intro hlong)
  · rename_i hshort
    exact iff_of_true rfl hshort

/-- Whether a single element is refused depends on nothing but whether the array
can grow by it. -/
theorem refusedIff_of_grow {items : List Value} {v : Value}
    {attempt : List Value × Except Rejected Unit}
    (hrefused : ∀ e, grow items 1 = .error e → attempt = (items, .error ⟨e, v⟩))
    (haccepted : grow items 1 = .ok () → attempt.2 = .ok ()) :
    RefusedIff attempt items v (maxArrayLength ≤ items.length) := by
  have hroom := grow_eq_ok_iff items 1
  cases hgrow : grow items 1 with
  | error e =>
      rw [hgrow] at hroom
      have hfull := mt hroom.mpr nofun
      apply RefusedIff.of_cases
      · intro _
        exact ⟨e, hrefused e hgrow⟩
      · intro h
        exact absurd (Nat.lt_of_not_le h) hfull
  | ok done =>
      have hshort : items.length < maxArrayLength := hroom.mp hgrow
      apply RefusedIff.of_cases
      · intro h
        exact absurd h (Nat.not_le_of_lt hshort)
      · intro _
        exact haccepted hgrow

theorem append_of_lt {items : List Value} (h : items.length < maxArrayLength) (v : Value) :
    append items v = (items ++ [v], .ok ()) := by
  rw [append, (grow_eq_ok_iff items 1).mpr h]

theorem prepend_of_lt {items : List Value} (h : items.length < maxArrayLength) (v : Value) :
    prepend items v = (v :: items, .ok ()) := by
  rw [prepend, (grow_eq_ok_iff items 1).mpr h]

theorem append_refusedIff (items : List Value) (v : Value) :
    RefusedIff (append items v) items v (maxArrayLength ≤ items.length) := by
  apply refusedIff_of_grow
  · intro e he
    rw [append, he]
  · intro hok
    rw [append, hok]

theorem prepend_refusedIff (items : List Value) (v : Value) :
    RefusedIff (prepend items v) items v (maxArrayLength ≤ items.length) := by
  apply refusedIff_of_grow
  · intro e he
    rw [prepend, he]
  · intro hok
    rw [prepend, hok]

theorem slot_of_lt (items : List Value) {index : Nat} (h : index < maxArrayLength) :
    slot items index =
      (items ++ List.replicate (index + 1 - items.length) Value.none, .ok ()) := by
  rw [slot, if_neg (Nat.not_le_of_lt h)]
  split
  · rename_i hbehind
    have hlength : items.length + (index + 1 - items.length) = index + 1 :=
      Nat.add_sub_of_le (Nat.le_succ_of_le hbehind)
    have hgrow : grow items (index + 1 - items.length) = .ok () := by
      rw [grow_eq_ok_iff, hlength]
      exact h
    simp only [hgrow]
  · rename_i hwithin
    rw [Nat.sub_eq_zero_of_le (Nat.lt_of_not_le hwithin), List.replicate_zero, List.append_nil]

theorem set_of_lt (items : List Value) {index : Nat} (h : index < maxArrayLength) (v : Value) :
    set items index v =
      ((items ++ List.replicate (index + 1 - items.length) Value.none).set index v,
        .ok ()) := by
  rw [set, slot_of_lt items h]

theorem set_of_le (items : List Value) {index : Nat} (h : maxArrayLength ≤ index) (v : Value) :
    set items index v = (items, .error ⟨.arrayTooLarge index, v⟩) := by
  rw [set, slot, if_pos h]

theorem set_refusedIff (items : List Value) (index : Nat) (v : Value) :
    RefusedIff (set items index v) items v (maxArrayLength ≤ index) := by
  apply RefusedIff.of_cases
  · intro h
    exact ⟨_, set_of_le items h v⟩
  · intro h
    rw [set_of_lt items (Nat.lt_of_not_le h)]

end Items

/-!
# Dictionaries
-/

namespace Dict

theorem insert_refusedIff (d : Dict Value) (key : Bytes) (v : Value) :
    RefusedIff (d.insert key v) d v (key ∈ d.keys) := by
  rw [mem_keys_iff]
  apply RefusedIff.of_cases
  · intro h
    exact ⟨_, if_pos h⟩
  · intro h
    rw [insert, if_neg h]

/-- Removing comes before the check, but removes nothing when there is no entry. -/
theorem delete_failsIff (d : Dict Value) (key : Bytes) :
    FailsIff (d.delete key) d (key ∉ d.keys) := by
  cases hget : d.get? key with
  | none =>
      have hmissing : key ∉ d.keys := (d.get?_eq_none_iff key).mp hget
      apply FailsIff.of_cases
      · intro _
        rw [delete, hget, remove_of_notMem hmissing]
        exact ⟨_, rfl⟩
      · intro h
        exact absurd hmissing h
  | some v =>
      apply FailsIff.of_cases
      · intro h
        rw [← d.get?_eq_none_iff key, hget] at h
        cases h
      · intro _
        rw [delete, hget]

end Dict

/-!
# The theorem
-/

/-- Adding fails unless there is an integer and the exact sum fits, and makes it
that sum otherwise.  An array refuses another element when it is full and one at an
index that no array has, a dictionary refuses to insert a key that it has and to
delete one that it has not.  Whatever fails leaves its receiver as it was and hands
back what was to be stored. -/
theorem operations_fail_unchanged :
    (∀ (v : Value) (addend : Int64),
      FailsIff (v.addInt addend) v
        (∀ n, v = .int n →
          ¬ (-(Number.signedBound : Int) ≤ n.toInt + addend.toInt ∧
            n.toInt + addend.toInt < Number.signedBound)) ∧
      ((v.addInt addend).2 = .ok () →
        ∃ n sum, v = .int n ∧ (v.addInt addend).1 = .int sum ∧
          sum.toInt = n.toInt + addend.toInt)) ∧
    (∀ (items : List Value) (v : Value), items.length ≤ maxArrayLength →
      RefusedIff (Items.append items v) items v (items.length = maxArrayLength) ∧
      RefusedIff (Items.prepend items v) items v (items.length = maxArrayLength)) ∧
    (∀ (items : List Value) (index : Nat) (v : Value),
      RefusedIff (Items.set items index v) items v (maxArrayLength ≤ index)) ∧
    (∀ (d : Dict Value) (key : Bytes) (v : Value),
      RefusedIff (d.insert key v) d v (key ∈ d.keys)) ∧
    (∀ (d : Dict Value) (key : Bytes), FailsIff (d.delete key) d (key ∉ d.keys)) := by
  refine ⟨?_, ?_, Items.set_refusedIff, Dict.insert_refusedIff, Dict.delete_failsIff⟩
  · intro v addend
    exact ⟨v.addInt_failsIff addend, Value.addInt_of_ok⟩
  · intro items v hlength
    have hfull : maxArrayLength ≤ items.length ↔ items.length = maxArrayLength := by
      rw [Nat.le_antisymm_iff, and_iff_right hlength]
    exact ⟨(Items.append_refusedIff items v).congr hfull,
      (Items.prepend_refusedIff items v).congr hfull⟩

/-- No element gets into a full array. -/
theorem full_array_refuses :
    (List.replicate maxArrayLength Value.none).length ≤ maxArrayLength ∧
      ∃ r, (Items.append (List.replicate maxArrayLength Value.none) (.int 5)).2 = .error r ∧
        r.value = .int 5 ∧
        (Items.append (List.replicate maxArrayLength Value.none) (.int 5)).1 =
          List.replicate maxArrayLength Value.none := by
  rcases operations_fail_unchanged with ⟨_, harray, _, _, _⟩
  have hlength : (List.replicate maxArrayLength Value.none).length = maxArrayLength :=
    List.length_replicate
  have happend := (harray _ (.int 5) (Nat.le_of_eq hlength)).left
  rcases happend.fails.mpr hlength with ⟨r, hr⟩
  exact ⟨Nat.le_of_eq hlength, r, hr, happend.returned r hr, happend.unchanged r hr⟩

end Stencil
