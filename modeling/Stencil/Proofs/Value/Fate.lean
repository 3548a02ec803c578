import Stencil.Proofs.Value.Sequence

/-!
# What becomes of stored values

A value that a call has stored in an array stays in it, at an index that changes with the
calls behind it, until one of them returns it or stores something else in its place.  So
each stored value ends in exactly one way, and no two of them end alike.  A call has the
number of calls before it as its time.
-/

namespace Stencil
namespace Items

open Sequence (after)

/-- What has become of a value: it is in the array at an index, or the call at a time has
returned it or has stored another one in its place. -/
inductive Fate where
  | kept (index : Nat)
  | returned (time : Nat)
  | overwritten (time : Nat)

def Call.place? (length : Nat) : Call → Option Nat
  | append _ => some length
  | prepend _ => some 0
  | set index _ => some index
  | pop => none
  | pull => none

namespace Fate

/-- What a call makes of the value at an index, at its time and on a
sequence of some length. -/
def moved (length time i : Nat) : Call → Fate
  | .append _ => kept i
  | .prepend _ => kept (i + 1)
  | .set index _ => if i = index then overwritten time else kept i
  | .pop => if i + 1 = length then returned time else kept i
  | .pull => if i = 0 then returned time else kept (i - 1)

def next (length time : Nat) (call : Call) : Fate → Fate
  | kept i => moved length time i call
  | returned earlier => returned earlier
  | overwritten earlier => overwritten earlier

def Within (length bound : Nat) : Fate → Prop
  | kept i => i < length
  | returned time => time < bound
  | overwritten time => time < bound

end Fate

/-- What has become, after all calls, of the value that the call at a time has stored. -/
inductive Meets : List Call → Nat → Fate → Prop where
  | stored {calls : List Call} {call : Call} {index : Nat} :
      call.place? (after calls).length = some index →
      Meets (calls ++ [call]) calls.length (.kept index)
  | passed {calls : List Call} {time : Nat} {fate : Fate} (call : Call) :
      Meets calls time fate →
      Meets (calls ++ [call]) time (fate.next (after calls).length calls.length call)

/-!
# Single calls
-/

namespace Fate

variable {s : Sequence} {time : Nat} {call : Call} {fate other : Fate} {i j : Nat}

theorem within_moved (h : i < s.length) (time : Nat) (call : Call) :
    (moved s.length time i call).Within (s.next call).length (time + 1) := by
  cases call with
  | append v =>
      exact Nat.lt_succ_of_lt h
  | prepend v =>
      exact Nat.succ_lt_succ h
  | set index v =>
      rw [moved]
      split
      · exact Nat.lt_succ_self time
      · exact Nat.lt_of_lt_of_le h (Nat.le_max_left _ _)
  | pop =>
      rw [moved]
      split
      · exact Nat.lt_succ_self time
      · show i < s.length - 1
        omega
  | pull =>
      rw [moved]
      split
      · exact Nat.lt_succ_self time
      · show i - 1 < s.length - 1
        omega

theorem Within.next (h : fate.Within s.length time) (call : Call) :
    (fate.next s.length time call).Within (s.next call).length (time + 1) := by
  cases fate with
  | kept i =>
      exact within_moved h time call
  | returned earlier =>
      exact Nat.lt_succ_of_lt h
  | overwritten earlier =>
      exact Nat.lt_succ_of_lt h

theorem moved_injective (hi : i < s.length) (hj : j < s.length)
    (h : moved s.length time i call = moved s.length time j call) : i = j := by
  cases call with
  | append v =>
      cases h
      rfl
  | prepend v =>
      cases h
      rfl
  | set index v =>
      rw [moved, moved] at h
      grind
  | pop =>
      rw [moved, moved] at h
      grind
  | pull =>
      rw [moved, moved] at h
      grind

theorem lt_of_moved (hlt : i < j) {i' j' : Nat} (hi : moved s.length time i call = kept i')
    (hj : moved s.length time j call = kept j') : i' < j' := by
  cases call with
  | append v =>
      cases hi
      cases hj
      exact hlt
  | prepend v =>
      cases hi
      cases hj
      exact Nat.succ_lt_succ hlt
  | set index v =>
      rw [moved] at hi hj
      grind
  | pop =>
      rw [moved] at hi hj
      grind
  | pull =>
      rw [moved] at hi hj
      grind

theorem item_of_moved (hi : i < s.length) (h : moved s.length time i call = kept j) :
    (s.next call).item j = s.item i := by
  cases call with
  | append v =>
      cases h
      exact if_neg (Nat.ne_of_lt hi)
  | prepend v =>
      cases h
      rfl
  | set index v =>
      rw [moved] at h
      split at h
      · cases h
      · rename_i hindex
        cases h
        exact (if_neg hindex).trans (if_pos hi)
  | pop =>
      rw [moved] at h
      split at h
      · cases h
      · cases h
        rfl
  | pull =>
      rw [moved] at h
      split at h
      · cases h
      · rename_i hfirst
        cases h
        exact congrArg s.item (Nat.sub_add_cancel (Nat.pos_of_ne_zero hfirst))

theorem moved_ne_place (hi : i < s.length) (hplace : call.place? s.length = some j) :
    moved s.length time i call ≠ kept j := by
  cases call with
  | append v =>
      cases hplace
      intro h
      cases h
      exact Nat.lt_irrefl _ hi
  | prepend v =>
      cases hplace
      intro h
      cases h
  | set index v =>
      cases hplace
      rw [moved]
      grind
  | pop =>
      cases hplace
  | pull =>
      cases hplace

theorem lt_of_place (h : call.place? s.length = some i) : i < (s.next call).length := by
  cases call with
  | append v =>
      cases h
      exact Nat.lt_succ_self _
  | prepend v =>
      cases h
      exact Nat.succ_pos _
  | set index v =>
      cases h
      exact Nat.lt_of_lt_of_le (Nat.lt_succ_self _) (Nat.le_max_right _ _)
  | pop =>
      cases h
  | pull =>
      cases h

theorem item_of_place {v : Value} (h : call.place? s.length = some i)
    (hvalue : call.value? = some v) : (s.next call).item i = v := by
  cases call with
  | append w =>
      cases h
      cases hvalue
      exact if_pos rfl
  | prepend w =>
      cases h
      cases hvalue
      rfl
  | set index w =>
      cases h
      cases hvalue
      exact if_pos rfl
  | pop =>
      cases h
  | pull =>
      cases h

theorem exists_place {v : Value} (h : call.value? = some v) (length : Nat) :
    ∃ i, call.place? length = some i := by
  cases call with
  | append w =>
      exact ⟨_, rfl⟩
  | prepend w =>
      exact ⟨_, rfl⟩
  | set index w =>
      exact ⟨_, rfl⟩
  | pop =>
      cases h
  | pull =>
      cases h

/-- What is in the sequence after a call has been stored by it, was there
before or is padding. -/
theorem origin (hj : j < (s.next call).length) (time : Nat) :
    (call.place? s.length = some j ∧ call.value? = some ((s.next call).item j)) ∨
      (s.next call).item j = .none ∨ ∃ i < s.length, moved s.length time i call = kept j := by
  cases call with
  | append v =>
      by_cases hplace : j = s.length
      · left
        rw [hplace]
        exact ⟨rfl, congrArg some (if_pos rfl).symm⟩
      · right
        right
        exact ⟨j, Nat.lt_of_le_of_ne (Nat.le_of_lt_succ hj) hplace, rfl⟩
  | prepend v =>
      cases j with
      | zero =>
          exact Or.inl ⟨rfl, rfl⟩
      | succ i =>
          exact Or.inr (Or.inr ⟨i, Nat.lt_of_succ_lt_succ hj, rfl⟩)
  | set index v =>
      by_cases hplace : j = index
      · left
        rw [hplace]
        exact ⟨rfl, congrArg some (if_pos rfl).symm⟩
      · right
        by_cases hold : j < s.length
        · exact Or.inr ⟨j, hold, if_neg hplace⟩
        · exact Or.inl ((if_neg hplace).trans (if_neg hold))
  | pop =>
      have hrest : j < s.length - 1 := hj
      exact Or.inr (Or.inr ⟨j, by omega, if_neg (by omega)⟩)
  | pull =>
      exact Or.inr (Or.inr ⟨j + 1, Nat.add_lt_of_lt_sub hj, rfl⟩)

theorem returned_of_moved (hi : i < s.length) {t : Nat}
    (h : moved s.length time i call = returned t) :
    t = time ∧ s.result call = some (s.item i) := by
  cases call with
  | append v =>
      cases h
  | prepend v =>
      cases h
  | set index v =>
      rw [moved] at h
      split at h <;> cases h
  | pop =>
      rw [moved] at h
      split at h
      · rename_i hlast
        cases h
        rw [Sequence.result, ← hlast, Nat.add_sub_cancel, Sequence.get?, if_pos hi]
        exact ⟨rfl, rfl⟩
      · cases h
  | pull =>
      rw [moved] at h
      split at h
      · rename_i hfirst
        cases h
        rw [Sequence.result, ← hfirst, Sequence.get?, if_pos hi]
        exact ⟨rfl, rfl⟩
      · cases h

theorem overwritten_of_moved {t : Nat} (h : moved s.length time i call = overwritten t) :
    t = time ∧ ∃ v, call = .set i v := by
  cases call with
  | append v =>
      cases h
  | prepend v =>
      cases h
  | set index v =>
      rw [moved] at h
      split at h
      · rename_i hindex
        cases h
        exact ⟨rfl, v, congrArg (Call.set · v) hindex.symm⟩
      · cases h
  | pop =>
      rw [moved] at h
      split at h <;> cases h
  | pull =>
      rw [moved] at h
      split at h <;> cases h

theorem exists_moved_of_result {v : Value} (h : s.result call = some v) (time : Nat) :
    ∃ i < s.length, moved s.length time i call = returned time ∧ s.item i = v := by
  cases call with
  | append w =>
      cases h
  | prepend w =>
      cases h
  | set index w =>
      cases h
  | pop =>
      rw [Sequence.result, Sequence.get?] at h
      split at h
      · rename_i hlast
        cases h
        refine ⟨s.length - 1, hlast, ?_, rfl⟩
        exact if_pos (Nat.sub_add_cancel (Nat.zero_lt_of_lt hlast))
      · cases h
  | pull =>
      rw [Sequence.result, Sequence.get?] at h
      split at h
      · rename_i hfirst
        cases h
        exact ⟨0, hfirst, rfl, rfl⟩
      · cases h

/-- Fates that are told apart before a call are told apart behind it. -/
theorem next_injective (hfate : fate.Within s.length time)
    (hother : other.Within s.length time)
    (h : fate.next s.length time call = other.next s.length time call) : fate = other := by
  have hgone : ∀ {i : Nat} {gone : Fate}, i < s.length → gone.Within s.length time →
      (∀ j, gone ≠ kept j) → moved s.length time i call ≠ gone := by
    intro i gone hi hwithin hleft h
    cases gone with
    | kept j =>
        exact hleft j rfl
    | returned t =>
        exact Nat.ne_of_lt hwithin (returned_of_moved hi h).left
    | overwritten t =>
        exact Nat.ne_of_lt hwithin (overwritten_of_moved h).left
  cases fate with
  | kept i =>
      cases other with
      | kept j =>
          rw [moved_injective hfate hother h]
      | _ =>
          exact absurd h (hgone hfate hother nofun)
  | _ =>
      cases other with
      | kept j =>
          exact absurd h.symm (hgone hother hfate nofun)
      | _ =>
          exact h

theorem next_ne_place (hfate : fate.Within s.length time)
    (hplace : call.place? s.length = some j) :
    fate.next s.length time call ≠ kept j := by
  cases fate with
  | kept i =>
      exact moved_ne_place hfate hplace
  | returned t =>
      exact nofun
  | overwritten t =>
      exact nofun

theorem exists_of_next_eq_kept (h : fate.next s.length time call = kept j) :
    ∃ i, fate = kept i ∧ moved s.length time i call = kept j := by
  cases fate with
  | kept i =>
      exact ⟨i, rfl, h⟩
  | returned t =>
      cases h
  | overwritten t =>
      cases h

end Fate

/-!
# One more call
-/

theorem meets_snoc {calls : List Call} {call : Call} {time : Nat} {fate : Fate} :
    Meets (calls ++ [call]) time fate ↔
      (time = calls.length ∧
        ∃ i, call.place? (after calls).length = some i ∧ fate = .kept i) ∨
      ∃ before, Meets calls time before ∧
        before.next (after calls).length calls.length call = fate := by
  constructor
  · intro h
    generalize hlong : calls ++ [call] = long at h
    cases h with
    | stored hplace =>
        rcases List.append_inj' hlong rfl with ⟨rfl, hcall⟩
        cases hcall
        exact Or.inl ⟨rfl, _, hplace, rfl⟩
    | passed other hbefore =>
        rcases List.append_inj' hlong rfl with ⟨rfl, hcall⟩
        cases hcall
        exact Or.inr ⟨_, hbefore, rfl⟩
  · intro h
    rcases h with ⟨rfl, i, hplace, rfl⟩ | ⟨before, hbefore, rfl⟩
    · exact Meets.stored hplace
    · exact Meets.passed call hbefore

theorem not_meets_nil (time : Nat) (fate : Fate) : ¬ Meets [] time fate := by
  intro h
  generalize hnil : ([] : List Call) = calls at h
  cases h with
  | stored _ =>
      exact List.append_ne_nil_of_right_ne_nil _ (List.cons_ne_nil _ _) hnil.symm
  | passed _ _ =>
      exact List.append_ne_nil_of_right_ne_nil _ (List.cons_ne_nil _ _) hnil.symm

namespace Meets

variable {calls : List Call} {time : Nat} {fate : Fate}

theorem time_lt (h : Meets calls time fate) : time < calls.length := by
  induction h with
  | stored _ =>
      simp
  | passed _ _ ih =>
      rw [List.length_append]
      exact Nat.lt_add_right _ ih

theorem within (h : Meets calls time fate) :
    fate.Within (after calls).length calls.length := by
  induction h with
  | stored hplace =>
      rw [Sequence.after_snoc]
      exact Fate.lt_of_place hplace
  | passed call _ ih =>
      rw [Sequence.after_snoc, List.length_append]
      exact ih.next call

end Meets
end Items
end Stencil
