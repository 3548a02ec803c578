import Mathlib.Data.List.Basic
import Mathlib.Data.List.Induction
import Stencil.Proofs.Except
import Stencil.Proofs.Path.Container
import Stencil.Proofs.Value.Refusal

/-!
# Arrays as sequences

An array that calls are made on is at any time the sequence that these calls describe:
storing past its end extends the sequence by `none` first, and a call that removes
returns the first or the last element.  As long as the sequence is not longer than arrays
may be, no call is refused.
-/

namespace Stencil
namespace Items

inductive Call where
  | append (v : Value)
  | prepend (v : Value)
  | set (index : Nat) (v : Value)
  | pop
  | pull

def removing (items : List Value) : Option (Value × List Value) → List Value × Option Value
  | none => (items, none)
  | some (v, rest) => (rest, some v)

def storing (attempt : List Value × Except Rejected Unit) :
    Except Rejected (List Value × Option Value) :=
  attempt.2.map fun _ => (attempt.1, none)

theorem exists_storing_iff (attempt : List Value × Except Rejected Unit) :
    (∃ done, storing attempt = .ok done) ↔ attempt.2 = .ok () := by
  rw [storing, exists_map_eq_ok_iff]
  exact ⟨fun h => h.choose_spec, fun h => ⟨(), h⟩⟩

namespace Call

def run (items : List Value) : Call → Except Rejected (List Value × Option Value)
  | append v => storing (Items.append items v)
  | prepend v => storing (Items.prepend items v)
  | set index v => storing (Items.set items index v)
  | pop => .ok (removing items (Items.pop items))
  | pull => .ok (removing items (Items.pull items))

def value? : Call → Option Value
  | append v => some v
  | prepend v => some v
  | set _ v => some v
  | pop => none
  | pull => none

end Call

theorem pop_concat (items : List Value) (v : Value) :
    pop (items ++ [v]) = some (v, items) := by
  rw [pop, List.getLast?_concat, List.dropLast_concat]
  rfl

def runNext (done : List Value × List (Option Value)) (call : Call) :
    Except Rejected (List Value × List (Option Value)) := do
  let (items, result) ← call.run done.1
  .ok (items, done.2 ++ [result])

def runAll (calls : List Call) : Except Rejected (List Value × List (Option Value)) :=
  calls.foldlM runNext ([], [])

end Items

/-!
# Sequences
-/

/-- A finite sequence: its length, and the values at the indices below that. -/
structure Sequence where
  length : Nat
  item : Nat → Value

namespace Sequence

open Items (Call)

def get? (s : Sequence) (i : Nat) : Option Value :=
  if i < s.length then some (s.item i) else none

def empty : Sequence where
  length := 0
  item _ := .none

def extend (s : Sequence) (length : Nat) : Sequence where
  length := max s.length length
  item i := if i < s.length then s.item i else .none

def next (s : Sequence) : Call → Sequence
  | .append v => ⟨s.length + 1, fun i => if i = s.length then v else s.item i⟩
  | .prepend v => ⟨s.length + 1, fun i => if i = 0 then v else s.item (i - 1)⟩
  | .set index v =>
    let extended := s.extend (index + 1)
    ⟨extended.length, fun i => if i = index then v else extended.item i⟩
  | .pop => ⟨s.length - 1, s.item⟩
  | .pull => ⟨s.length - 1, fun i => s.item (i + 1)⟩

def result (s : Sequence) : Call → Option Value
  | .pop => s.get? (s.length - 1)
  | .pull => s.get? 0
  | _ => none

def after (calls : List Call) : Sequence :=
  calls.foldl next empty

theorem after_snoc (calls : List Call) (call : Call) :
    after (calls ++ [call]) = (after calls).next call := by
  rw [after, List.foldl_append]
  rfl

def Fits (calls : List Call) : Prop :=
  ∀ front, front <+: calls → (after front).length ≤ maxArrayLength

theorem fits_nil : Fits [] := by
  intro front hfront
  rw [List.prefix_nil.mp hfront]
  exact Nat.zero_le _

theorem Fits.length_le {calls : List Call} (h : Fits calls) :
    (after calls).length ≤ maxArrayLength :=
  h calls (List.prefix_refl calls)

theorem fits_snoc {calls : List Call} {call : Call} :
    Fits (calls ++ [call]) ↔
      Fits calls ∧ ((after calls).next call).length ≤ maxArrayLength := by
  rw [← after_snoc]
  constructor
  · intro h
    refine ⟨?_, h.length_le⟩
    intro front hfront
    exact h front (hfront.trans (List.prefix_append _ _))
  · intro h front hfront
    rcases List.prefix_concat_iff.mp hfront with rfl | hbefore
    · exact h.right
    · exact h.left front hbefore

/-!
# The sequence of an array
-/

structure Denotes (items : List Value) (s : Sequence) : Prop where
  length_eq : items.length = s.length
  getElem?_eq : ∀ i < s.length, items[i]? = some (s.item i)

namespace Denotes

variable {items : List Value} {s : Sequence}

theorem get?_eq (h : Denotes items s) (i : Nat) : items[i]? = s.get? i := by
  rw [get?]
  split
  · rename_i hi
    exact h.getElem?_eq i hi
  · rename_i hi
    rw [← h.length_eq, Nat.not_lt] at hi
    exact List.getElem?_eq_none hi

theorem nil (h : s.length = 0) : Denotes [] s where
  length_eq := h.symm
  getElem?_eq i hi := by
    rw [h] at hi
    exact absurd hi (Nat.not_lt_zero i)

theorem append (h : Denotes items s) (v : Value) :
    Denotes (items ++ [v]) (s.next (.append v)) where
  length_eq := by
    rw [List.length_append, h.length_eq]
    rfl
  getElem?_eq i hi := by
    show _ = some (if i = s.length then v else s.item i)
    split
    · rename_i hlast
      rw [hlast, ← h.length_eq, List.getElem?_concat_length]
    · rename_i hlast
      have hbefore : i < s.length := Nat.lt_of_le_of_ne (Nat.le_of_lt_succ hi) hlast
      rw [List.getElem?_append_left (h.length_eq ▸ hbefore), h.getElem?_eq i hbefore]

theorem prepend (h : Denotes items s) (v : Value) :
    Denotes (v :: items) (s.next (.prepend v)) where
  length_eq := by
    rw [List.length_cons, h.length_eq]
    rfl
  getElem?_eq i hi := by
    cases i with
    | zero =>
        rfl
    | succ i =>
        exact h.getElem?_eq i (Nat.lt_of_succ_lt_succ hi)

theorem put (h : Denotes items s) (index : Nat) (v : Value) :
    Denotes (Items.put items index v) (s.next (.set index v)) where
  length_eq := by
    rw [Items.length_put, h.length_eq]
    rfl
  getElem?_eq i hi := by
    show _ = some (if i = index then v else if i < s.length then s.item i else .none)
    split
    · rename_i hindex
      rw [hindex, Items.getElem?_put_self]
    · rename_i hindex
      rw [Items.getElem?_put_of_ne items v hindex, h.length_eq]
      split
      · rename_i hold
        exact h.getElem?_eq i hold
      · rename_i hnew
        have hlength : i < max s.length (index + 1) := hi
        exact if_pos (by omega)

theorem pop (h : Denotes items s) :
    Denotes (Items.removing items (Items.pop items)).1 (s.next .pop) ∧
      (Items.removing items (Items.pop items)).2 = s.result .pop := by
  rw [result, ← h.get?_eq, ← h.length_eq]
  rcases List.eq_nil_or_concat' items with rfl | ⟨rest, v, rfl⟩
  · exact ⟨Denotes.nil (congrArg (· - 1) h.length_eq.symm), rfl⟩
  · have hlength : rest.length = s.length - 1 := by
      rw [← h.length_eq, List.length_append, List.length_singleton, Nat.add_sub_cancel]
    rw [Items.pop_concat, List.length_append, List.length_singleton, Nat.add_sub_cancel,
      List.getElem?_concat_length]
    refine ⟨⟨hlength, ?_⟩, rfl⟩
    intro i hi
    have hrest : i < s.length - 1 := hi
    have hget := h.getElem?_eq i (Nat.lt_of_lt_of_le hrest (Nat.sub_le _ _))
    rw [List.getElem?_append_left (hlength ▸ hrest)] at hget
    exact hget

theorem pull (h : Denotes items s) :
    Denotes (Items.removing items (Items.pull items)).1 (s.next .pull) ∧
      (Items.removing items (Items.pull items)).2 = s.result .pull := by
  rw [result, ← h.get?_eq]
  cases items with
  | nil =>
      exact ⟨Denotes.nil (congrArg (· - 1) h.length_eq.symm), rfl⟩
  | cons v rest =>
      have hlength : rest.length = s.length - 1 := by
        rw [← h.length_eq, List.length_cons, Nat.add_sub_cancel]
      refine ⟨⟨hlength, ?_⟩, rfl⟩
      intro i hi
      exact h.getElem?_eq (i + 1) (Nat.add_lt_of_lt_sub hi)

theorem run (h : Denotes items s) {call : Call} {items' : List Value} {result : Option Value}
    (hrun : call.run items = .ok (items', result)) :
    Denotes items' (s.next call) ∧ result = s.result call := by
  cases call with
  | append v =>
      rcases (map_eq_ok_iff _ _ _).mp hrun with ⟨_, hok, heq⟩
      cases heq
      have hroom := Nat.lt_of_not_le ((Items.append_refusedIff items v).accepted.mp hok)
      rw [Items.append_of_lt hroom]
      exact ⟨h.append v, rfl⟩
  | prepend v =>
      rcases (map_eq_ok_iff _ _ _).mp hrun with ⟨_, hok, heq⟩
      cases heq
      have hroom := Nat.lt_of_not_le ((Items.prepend_refusedIff items v).accepted.mp hok)
      rw [Items.prepend_of_lt hroom]
      exact ⟨h.prepend v, rfl⟩
  | set index v =>
      rcases (map_eq_ok_iff _ _ _).mp hrun with ⟨_, hok, heq⟩
      cases heq
      have hroom := Nat.lt_of_not_le ((Items.set_refusedIff items index v).accepted.mp hok)
      rw [Items.set_of_lt items hroom, Items.set_filled]
      exact ⟨h.put index v, rfl⟩
  | pop =>
      have hpop := h.pop
      rw [Except.ok.inj hrun] at hpop
      exact hpop
  | pull =>
      have hpull := h.pull
      rw [Except.ok.inj hrun] at hpull
      exact hpull

theorem exists_run_iff (h : Denotes items s) (hs : s.length ≤ maxArrayLength) (call : Call) :
    (∃ done, call.run items = .ok done) ↔ (s.next call).length ≤ maxArrayLength := by
  cases call with
  | append v =>
      rw [Call.run, Items.exists_storing_iff, (Items.append_refusedIff items v).accepted,
        h.length_eq, Nat.not_le]
      exact Iff.rfl
  | prepend v =>
      rw [Call.run, Items.exists_storing_iff, (Items.prepend_refusedIff items v).accepted,
        h.length_eq, Nat.not_le]
      exact Iff.rfl
  | set index v =>
      rw [Call.run, Items.exists_storing_iff, (Items.set_refusedIff items index v).accepted,
        Nat.not_le]
      exact (Nat.max_le.trans (and_iff_right hs)).symm
  | pop =>
      exact iff_of_true ⟨_, rfl⟩ (Nat.le_trans (Nat.sub_le _ _) hs)
  | pull =>
      exact iff_of_true ⟨_, rfl⟩ (Nat.le_trans (Nat.sub_le _ _) hs)

end Denotes
end Sequence

/-!
# Arrays after calls
-/

namespace Items

open Sequence (Denotes Fits after)

theorem runAll_snoc_eq_ok_iff (calls : List Call) (call : Call) (items : List Value)
    (results : List (Option Value)) :
    runAll (calls ++ [call]) = .ok (items, results) ↔
      ∃ before earlier result, runAll calls = .ok (before, earlier) ∧
        call.run before = .ok (items, result) ∧ results = earlier ++ [result] := by
  rw [runAll, foldlM_append_eq_ok_iff]
  constructor
  · intro h
    rcases h with ⟨⟨before, earlier⟩, hbefore, hlast⟩
    rcases (foldlM_cons_eq_ok_iff _ _ _ _).mp hlast with ⟨done, hnext, hnil⟩
    cases hnil
    rcases (bind_eq_ok_iff _ _ _).mp hnext with ⟨⟨changed, result⟩, hrun, heq⟩
    cases heq
    exact ⟨before, earlier, result, hbefore, hrun, rfl⟩
  · intro h
    rcases h with ⟨before, earlier, result, hbefore, hrun, rfl⟩
    refine ⟨(before, earlier), hbefore, (foldlM_cons_eq_ok_iff _ _ _ _).mpr ⟨_, ?_, rfl⟩⟩
    exact (bind_eq_ok_iff _ _ _).mpr ⟨_, hrun, rfl⟩

/-- The array is the sequence of its calls, and each call has returned
what it returns there. -/
theorem denotes_of_runAll {calls : List Call} {items : List Value}
    {results : List (Option Value)} (h : runAll calls = .ok (items, results)) :
    Denotes items (after calls) ∧ results.length = calls.length ∧
      ∀ time, results[time]? = calls[time]?.map (after (calls.take time)).result := by
  induction calls using List.reverseRecOn generalizing items results with
  | nil =>
      cases h
      exact ⟨Denotes.nil rfl, rfl, fun _ => rfl⟩
  | append_singleton calls next ih =>
      rcases (runAll_snoc_eq_ok_iff _ _ _ _).mp h with
        ⟨before, earlier, result, hbefore, hrun, rfl⟩
      rcases ih hbefore with ⟨hdenotes, hlength, hresults⟩
      rcases hdenotes.run hrun with ⟨hnext, hresult⟩
      refine ⟨?_, ?_, ?_⟩
      · rw [Sequence.after_snoc]
        exact hnext
      · rw [List.length_append, List.length_append, hlength]
        rfl
      · intro time
        rcases Nat.lt_trichotomy time calls.length with hlt | rfl | hgt
        · rw [List.getElem?_append_left (hlength ▸ hlt), List.getElem?_append_left hlt,
            List.take_append_of_le_length (Nat.le_of_lt hlt), hresults]
        · rw [List.getElem?_concat_length, List.take_left, ← hlength,
            List.getElem?_concat_length, hresult]
          rfl
        · rw [List.getElem?_eq_none (by simp; omega), List.getElem?_eq_none (by simp; omega)]
          rfl

theorem exists_runAll_iff (calls : List Call) :
    (∃ done, runAll calls = .ok done) ↔ Fits calls := by
  induction calls using List.reverseRecOn with
  | nil =>
      exact iff_of_true ⟨_, rfl⟩ Sequence.fits_nil
  | append_singleton calls next ih =>
      rw [Sequence.fits_snoc, ← ih]
      constructor
      · intro h
        rcases h with ⟨⟨items, results⟩, h⟩
        rcases (runAll_snoc_eq_ok_iff _ _ _ _).mp h with
          ⟨before, earlier, result, hbefore, hrun, rfl⟩
        have hlength := (ih.mp ⟨_, hbefore⟩).length_le
        have hdenotes := (denotes_of_runAll hbefore).left
        exact ⟨⟨_, hbefore⟩, (hdenotes.exists_run_iff hlength next).mp ⟨_, hrun⟩⟩
      · intro h
        rcases h with ⟨⟨⟨before, earlier⟩, hbefore⟩, hnext⟩
        have hlength := (ih.mp ⟨_, hbefore⟩).length_le
        have hdenotes := (denotes_of_runAll hbefore).left
        rcases (hdenotes.exists_run_iff hlength next).mpr hnext with ⟨⟨items, result⟩, hrun⟩
        exact ⟨_, (runAll_snoc_eq_ok_iff _ _ _ _).mpr
          ⟨before, earlier, result, hbefore, hrun, rfl⟩⟩

end Items
end Stencil
