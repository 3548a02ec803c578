import Stencil.Document.Conversion
import Stencil.Proofs.Except
import Stencil.Proofs.Value.Refusal

/-!
# The numbers of a document

Only numbers can keep a document from being converted.  Read in the order in
which the text has them, the first one without a counterpart is the one that
the conversion fails with.
-/

namespace Stencil

/-!
# Single numbers
-/

namespace Number

def Representable (n : Number) : Prop :=
  ∃ i : Int, n = .integer i ∧ -(signedBound : Int) ≤ i ∧ i < signedBound

theorem toInt64?_eq_some_iff (n : Number) (i : Int64) :
    n.toInt64? = some i ↔ n = .integer i.toInt := by
  cases n with
  | integer value =>
      rw [toInt64?]
      constructor
      · intro h
        split at h
        · rename_i hfits
          rcases (Value.fitsInt64_iff value).mp hfits with ⟨hlower, hupper⟩
          cases h
          rw [Int64.toInt_ofInt_of_le hlower hupper]
        · cases h
      · intro h
        cases h
        have hfits := (Value.fitsInt64_iff i.toInt).mpr ⟨i.le_toInt, i.toInt_lt⟩
        rw [if_pos hfits, Int64.ofInt_toInt]
  | double value =>
      constructor
      · nofun
      · nofun

theorem representable_iff (n : Number) : n.Representable ↔ ∃ i, n.toInt64? = some i := by
  constructor
  · intro h
    rcases h with ⟨value, rfl, hlower, hupper⟩
    refine ⟨Int64.ofInt value, (toInt64?_eq_some_iff _ _).mpr ?_⟩
    rw [Int64.toInt_ofInt_of_le hlower hupper]
  · intro h
    rcases h with ⟨i, hi⟩
    exact ⟨i.toInt, (toInt64?_eq_some_iff n i).mp hi, i.le_toInt, i.toInt_lt⟩

end Number

namespace Document

/-!
# The numbers in order
-/

mutual

def numbers : Document → List Number
  | .number n => [n]
  | .array items => numbersOfItems items
  | .object ⟨members⟩ => numbersOfMembers members
  | .null | .bool _ | .string _ => []

def numbersOfItems : List Document → List Number
  | [] => []
  | item :: rest => numbers item ++ numbersOfItems rest

def numbersOfMembers : List (Bytes × Document) → List Number
  | [] => []
  | (_, member) :: rest => numbers member ++ numbersOfMembers rest

end

theorem numbers_array (items : List Document) :
    (array items).numbers = items.flatMap numbers := by
  rw [numbers]
  induction items with
  | nil =>
      rfl
  | cons item rest ih =>
      rw [numbersOfItems, ih, List.flatMap_cons]

theorem numbers_object (members : Dict Document) :
    (object members).numbers = members.entries.flatMap (·.2.numbers) := by
  rcases members with ⟨members⟩
  rw [numbers]
  induction members with
  | nil =>
      rfl
  | cons member rest ih =>
      rw [numbersOfMembers, ih, List.flatMap_cons]

/-!
# Outcomes
-/

/-- How a conversion that meets some numbers in order comes out: it fails with the first
of them that has no counterpart. -/
inductive SettledBy {α : Type} : Except ValueError α → List Number → Prop where
  | ok {a : α} {numbers : List Number} : (∀ n ∈ numbers, n.Representable) →
      SettledBy (.ok a) numbers
  | error {n : Number} {front back : List Number} :
      (∀ m ∈ front, m.Representable) → ¬ n.Representable →
      SettledBy (.error (.unrepresentable n)) (front ++ n :: back)

namespace SettledBy

variable {α β : Type} {outcome : Except ValueError α} {numbers : List Number}

theorem pure (a : α) : SettledBy (.ok a) [] :=
  SettledBy.ok nofun

theorem map (h : SettledBy outcome numbers) (f : α → β) :
    SettledBy (outcome.map f) numbers := by
  cases h with
  | ok hall =>
      exact SettledBy.ok hall
  | error hfront hn =>
      exact SettledBy.error hfront hn

theorem bind {next : α → Except ValueError β} {others : List Number}
    (h : SettledBy outcome numbers) (hnext : ∀ a, SettledBy (next a) others) :
    SettledBy (outcome >>= next) (numbers ++ others) := by
  cases h with
  | @ok a _ hall =>
      have hrest := hnext a
      change SettledBy (next a) (numbers ++ others)
      generalize next a = outcome at hrest ⊢
      cases hrest with
      | ok hothers =>
          exact SettledBy.ok (List.forall_mem_append.mpr ⟨hall, hothers⟩)
      | error hfront hn =>
          rw [← List.append_assoc]
          exact SettledBy.error (List.forall_mem_append.mpr ⟨hall, hfront⟩) hn
  | error hfront hn =>
      rw [List.append_assoc, List.cons_append]
      exact SettledBy.error hfront hn

theorem exists_ok_iff (h : SettledBy outcome numbers) :
    (∃ a, outcome = .ok a) ↔ ∀ n ∈ numbers, n.Representable := by
  cases h with
  | @ok a _ hall =>
      exact iff_of_true ⟨a, rfl⟩ hall
  | @error n front back hfront hn =>
      apply iff_of_false
      · nofun
      · intro hall
        exact hn (hall n (List.mem_append_right front List.mem_cons_self))

theorem eq_error_iff (h : SettledBy outcome numbers) (e : ValueError) :
    outcome = .error e ↔
      ∃ front n back, numbers = front ++ n :: back ∧ (∀ m ∈ front, m.Representable) ∧
        ¬ n.Representable ∧ e = .unrepresentable n := by
  constructor
  · intro he
    cases h with
    | ok hall =>
        cases he
    | @error n front back hfront hn =>
        cases he
        exact ⟨front, n, back, rfl, hfront, hn, rfl⟩
  · intro hfirst
    rcases hfirst with ⟨front, n, back, hnumbers, hfront, hn, rfl⟩
    cases h with
    | ok hall =>
        rw [hnumbers] at hall
        exact absurd (hall n (List.mem_append_right front List.mem_cons_self)) hn
    | @error m front' back' hfront' hm =>
        -- Neither of the two can stand in front of the other.
        rcases List.append_eq_append_iff.mp hnumbers with ⟨more, hlater, hrest⟩
          | ⟨more, hlater, hrest⟩
        · cases more with
          | nil =>
              cases hrest
              rfl
          | cons first more =>
              cases hrest
              rw [hlater] at hfront
              exact absurd (hfront m (List.mem_append_right front' List.mem_cons_self)) hm
        · cases more with
          | nil =>
              cases hrest
              rfl
          | cons first more =>
              cases hrest
              rw [hlater] at hfront'
              exact absurd (hfront' n (List.mem_append_right front List.mem_cons_self)) hn

end SettledBy

/-!
# Conversions
-/

theorem numberToValue_settledBy (n : Number) : SettledBy (numberToValue n) [n] := by
  have hn := Number.representable_iff n
  rw [numberToValue]
  split
  · rename_i i hi
    apply SettledBy.ok
    intro m hm
    rw [List.mem_singleton.mp hm]
    exact hn.mpr ⟨i, hi⟩
  · rename_i hnone
    apply @SettledBy.error _ n [] [] nofun
    intro h
    rcases hn.mp h with ⟨i, hi⟩
    rw [hnone] at hi
    cases hi

theorem toItems_settledBy {items : List Document}
    (h : ∀ j ∈ items, SettledBy j.toValue j.numbers) (index : Nat)
    (hlength : index + items.length ≤ maxArrayLength) :
    SettledBy (toItems index items) (items.flatMap numbers) := by
  induction items generalizing index with
  | nil =>
      exact SettledBy.pure []
  | cons item rest ih =>
      rw [List.forall_mem_cons] at h
      rw [List.length_cons] at hlength
      have hbound : ¬ maxArrayLength < index + 1 := by
        omega
      rw [toItems, List.flatMap_cons]
      apply h.left.bind
      intro v
      rw [if_neg hbound]
      exact (ih h.right (index + 1) (by omega)).map (v :: ·)

theorem toDict_settledBy {members : List (Bytes × Document)}
    (h : ∀ m ∈ members, SettledBy m.2.toValue m.2.numbers) (d : Dict Value) :
    SettledBy (toDict d members) (members.flatMap (·.2.numbers)) := by
  induction members generalizing d with
  | nil =>
      exact SettledBy.pure d
  | cons member rest ih =>
      rw [List.forall_mem_cons] at h
      rw [toDict, List.flatMap_cons]
      apply h.left.bind
      intro v
      exact ih h.right (d.replace member.1 v)

/-!
# Well-formed documents
-/

inductive WellFormed : Document → Prop where
  | null : WellFormed .null
  | bool (b : Bool) : WellFormed (.bool b)
  | number (n : Number) : WellFormed (.number n)
  | string (bytes : Bytes) : WellFormed (.string bytes)
  | array {items : List Document} :
      items.length ≤ maxArrayLength → (∀ j ∈ items, WellFormed j) → WellFormed (.array items)
  | object {members : Dict Document} :
      members.Distinct → (∀ m ∈ members.entries, WellFormed m.2) → WellFormed (.object members)

theorem WellFormed.toValue_settledBy {j : Document} (h : j.WellFormed) :
    SettledBy j.toValue j.numbers := by
  induction h with
  | null =>
      exact SettledBy.pure _
  | bool b =>
      exact SettledBy.pure _
  | number n =>
      exact numberToValue_settledBy n
  | string bytes =>
      exact SettledBy.pure _
  | @array items hlength _ ih =>
      rw [toValue, numbers_array]
      exact (toItems_settledBy ih 0 (by omega)).map Value.array
  | @object members _ _ ih =>
      rw [numbers_object, toValue]
      exact (toDict_settledBy ih .empty).map Value.dict

end Document
end Stencil
