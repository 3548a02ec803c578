import Stencil.Proofs.Value.Fate

/-!
# Conservation of stored values

Over any calls an array loses and doubles nothing: each value that was stored is in it
once, or was returned once, or was overwritten, and all else in it is padding.  Those that
stay keep their order.
-/

namespace Stencil
namespace Items

open Sequence (after Fits)

def Stores (calls : List Call) (time : Nat) (v : Value) : Prop :=
  ∃ call, calls[time]? = some call ∧ call.value? = some v

section

variable {calls : List Call} {call : Call} {time : Nat} {v : Value}

theorem Stores.append (h : Stores calls time v) (back : List Call) :
    Stores (calls ++ back) time v := by
  rcases h with ⟨stored, hget, hvalue⟩
  refine ⟨stored, ?_, hvalue⟩
  rw [List.getElem?_append_left (List.getElem?_eq_some_iff.mp hget).choose, hget]

theorem stores_snoc :
    Stores (calls ++ [call]) time v ↔
      (time = calls.length ∧ call.value? = some v) ∨ Stores calls time v := by
  constructor
  · intro h
    rcases h with ⟨stored, hget, hvalue⟩
    rcases Nat.lt_trichotomy time calls.length with hlt | rfl | hgt
    · rw [List.getElem?_append_left hlt] at hget
      exact Or.inr ⟨stored, hget, hvalue⟩
    · rw [List.getElem?_concat_length] at hget
      cases hget
      exact Or.inl ⟨rfl, hvalue⟩
    · rw [List.getElem?_eq_none (by simp; omega)] at hget
      cases hget
  · intro h
    rcases h with ⟨rfl, hvalue⟩ | hbefore
    · exact ⟨call, List.getElem?_concat_length, hvalue⟩
    · exact hbefore.append [call]

end

/-!
# Each value has one fate of its own
-/

theorem Stores.exists_meets {calls : List Call} {time : Nat} {v : Value}
    (h : Stores calls time v) : ∃ fate, Meets calls time fate := by
  induction calls using List.reverseRecOn with
  | nil =>
      rcases h with ⟨call, hget, _⟩
      cases hget
  | append_singleton calls next ih =>
      rcases stores_snoc.mp h with ⟨rfl, hvalue⟩ | hbefore
      · rcases Fate.exists_place hvalue (after calls).length with ⟨i, hplace⟩
        exact ⟨_, Meets.stored hplace⟩
      · rcases ih hbefore with ⟨fate, hfate⟩
        exact ⟨_, hfate.passed next⟩

namespace Meets

theorem unique {calls : List Call} {time : Nat} {fate other : Fate} (h : Meets calls time fate)
    (hother : Meets calls time other) : fate = other := by
  induction calls using List.reverseRecOn generalizing fate other with
  | nil =>
      exact absurd h (not_meets_nil time fate)
  | append_singleton calls next ih =>
      rcases meets_snoc.mp h with ⟨rfl, i, hplace, rfl⟩ | ⟨before, hbefore, rfl⟩
      · rcases meets_snoc.mp hother with ⟨_, j, hplace', rfl⟩ | ⟨before, hbefore, _⟩
        · rw [hplace] at hplace'
          rw [Option.some.inj hplace']
        · exact absurd hbefore.time_lt (Nat.lt_irrefl _)
      · rcases meets_snoc.mp hother with ⟨rfl, _⟩ | ⟨before', hbefore', rfl⟩
        · exact absurd hbefore.time_lt (Nat.lt_irrefl _)
        · rw [ih hbefore hbefore']

theorem injective {calls : List Call} {time later : Nat} {fate : Fate}
    (h : Meets calls time fate) (hlater : Meets calls later fate) : time = later := by
  induction calls using List.reverseRecOn generalizing fate with
  | nil =>
      exact absurd h (not_meets_nil time fate)
  | append_singleton calls next ih =>
      rcases meets_snoc.mp h with ⟨rfl, i, hplace, rfl⟩ | ⟨before, hbefore, rfl⟩
      · rcases meets_snoc.mp hlater with ⟨rfl, _⟩ | ⟨before, hbefore, hnext⟩
        · rfl
        · exact absurd hnext (Fate.next_ne_place hbefore.within hplace)
      · rcases meets_snoc.mp hlater with ⟨_, j, hplace, hnext⟩ | ⟨before', hbefore', hnext⟩
        · exact absurd hnext (Fate.next_ne_place hbefore.within hplace)
        · have hsame := Fate.next_injective hbefore'.within hbefore.within hnext
          rw [hsame] at hbefore'
          exact ih hbefore hbefore'

/-!
# The fate is what happened
-/

theorem item_eq {calls : List Call} {time i : Nat} {v : Value} (h : Meets calls time (.kept i))
    (hstores : Stores calls time v) : (after calls).item i = v := by
  induction calls using List.reverseRecOn generalizing i with
  | nil =>
      exact absurd h (not_meets_nil time _)
  | append_singleton calls next ih =>
      rw [Sequence.after_snoc]
      rcases meets_snoc.mp h with ⟨rfl, j, hplace, hkept⟩ | ⟨before, hbefore, hnext⟩
      · cases hkept
        rcases stores_snoc.mp hstores with ⟨_, hvalue⟩ | ⟨_, hget, _⟩
        · exact Fate.item_of_place hplace hvalue
        · rw [List.getElem?_eq_none (Nat.le_refl _)] at hget
          cases hget
      · rcases Fate.exists_of_next_eq_kept hnext with ⟨j, rfl, hmoved⟩
        rw [Fate.item_of_moved hbefore.within hmoved]
        rcases stores_snoc.mp hstores with ⟨rfl, _⟩ | hstores
        · exact absurd hbefore.time_lt (Nat.lt_irrefl _)
        · exact ih hbefore hstores

theorem exists_exit {calls : List Call} {time : Nat} {fate : Fate} {v : Value}
    (h : Meets calls time fate) (hstores : Stores calls time v) (hleft : ∀ i, fate ≠ .kept i) :
    ∃ exit call i, calls[exit]? = some call ∧ i < (after (calls.take exit)).length ∧
      (after (calls.take exit)).item i = v ∧
      Fate.moved (after (calls.take exit)).length exit i call = fate := by
  induction calls using List.reverseRecOn generalizing fate with
  | nil =>
      exact absurd h (not_meets_nil time fate)
  | append_singleton calls next ih =>
      rcases meets_snoc.mp h with ⟨_, j, _, hkept⟩ | ⟨before, hbefore, hnext⟩
      · exact absurd hkept (hleft j)
      · rcases stores_snoc.mp hstores with ⟨rfl, _⟩ | hstores
        · exact absurd hbefore.time_lt (Nat.lt_irrefl _)
        · cases before with
          | kept i =>
              refine ⟨calls.length, next, i, List.getElem?_concat_length, ?_⟩
              rw [List.take_left]
              exact ⟨hbefore.within, hbefore.item_eq hstores, hnext⟩
          | _ =>
              cases hnext
              rcases ih hbefore hstores nofun with ⟨exit, call, i, hget, hexit⟩
              have hlt := (List.getElem?_eq_some_iff.mp hget).choose
              refine ⟨exit, call, i, (List.getElem?_append_left hlt).trans hget, ?_⟩
              rw [List.take_append_of_le_length (Nat.le_of_lt hlt)]
              exact hexit

theorem append {front : List Call} {time : Nat} {fate : Fate} (h : Meets front time fate)
    (hleft : ∀ i, fate ≠ .kept i) (back : List Call) : Meets (front ++ back) time fate := by
  induction back using List.reverseRecOn with
  | nil =>
      rw [List.append_nil]
      exact h
  | append_singleton back next ih =>
      rw [← List.append_assoc]
      refine meets_snoc.mpr (Or.inr ⟨fate, ih, ?_⟩)
      cases fate with
      | kept i =>
          exact absurd rfl (hleft i)
      | _ =>
          rfl

theorem order {front back : List Call} {first second i j i' j' : Nat}
    (hfirst : Meets front first (.kept i)) (hsecond : Meets front second (.kept j))
    (hlt : i < j) (hfirst' : Meets (front ++ back) first (.kept i'))
    (hsecond' : Meets (front ++ back) second (.kept j')) : i' < j' := by
  induction back using List.reverseRecOn generalizing i' j' with
  | nil =>
      rw [List.append_nil] at hfirst' hsecond'
      cases hfirst.unique hfirst'
      cases hsecond.unique hsecond'
      exact hlt
  | append_singleton back next ih =>
      have hearlier : ∀ {time k k' : Nat}, Meets front time (.kept k) →
          Meets (front ++ (back ++ [next])) time (.kept k') →
          ∃ l, Meets (front ++ back) time (.kept l) ∧
            Fate.moved (after (front ++ back)).length (front ++ back).length l next =
              .kept k' := by
        intro time k k' h h'
        rw [← List.append_assoc] at h'
        rcases meets_snoc.mp h' with ⟨rfl, _⟩ | ⟨before, hbefore, hnext⟩
        · have hshort := h.time_lt
          rw [List.length_append] at hshort
          exact absurd hshort (Nat.not_lt.mpr (Nat.le_add_right _ _))
        · rcases Fate.exists_of_next_eq_kept hnext with ⟨l, rfl, hmoved⟩
          exact ⟨l, hbefore, hmoved⟩
      rcases hearlier hfirst hfirst' with ⟨k, hk, hmovedFirst⟩
      rcases hearlier hsecond hsecond' with ⟨l, hl, hmovedSecond⟩
      exact Fate.lt_of_moved (ih hk hl) hmovedFirst hmovedSecond

end Meets

/-!
# All else is padding
-/

theorem exists_kept_or_padding {calls : List Call} {i : Nat} (h : i < (after calls).length) :
    (∃ time, Stores calls time ((after calls).item i) ∧ Meets calls time (.kept i)) ∨
      (after calls).item i = .none := by
  induction calls using List.reverseRecOn generalizing i with
  | nil =>
      exact absurd h (Nat.not_lt_zero i)
  | append_singleton calls next ih =>
      rw [Sequence.after_snoc] at h ⊢
      rcases Fate.origin h calls.length with ⟨hplace, hvalue⟩ | hpadding | ⟨j, hj, hmoved⟩
      · exact Or.inl ⟨calls.length, stores_snoc.mpr (Or.inl ⟨rfl, hvalue⟩),
          Meets.stored hplace⟩
      · exact Or.inr hpadding
      · rw [Fate.item_of_moved hj hmoved]
        rcases ih hj with ⟨time, hstores, hkept⟩ | hpadding
        · exact Or.inl ⟨time, hstores.append [next],
            meets_snoc.mpr (Or.inr ⟨_, hkept, hmoved⟩)⟩
        · exact Or.inr hpadding

theorem exists_returned_or_padding {calls : List Call} {time : Nat} {call : Call} {v : Value}
    (hcall : calls[time]? = some call) (h : (after (calls.take time)).result call = some v) :
    (∃ stored, Stores calls stored v ∧ Meets calls stored (.returned time)) ∨ v = .none := by
  rcases Fate.exists_moved_of_result h time with ⟨i, hi, hmoved, rfl⟩
  rcases exists_kept_or_padding hi with ⟨stored, hstores, hkept⟩ | hpadding
  · left
    rcases List.getElem?_eq_some_iff.mp hcall with ⟨hlt, hget⟩
    have hlength : (calls.take time).length = time := List.length_take_of_le (Nat.le_of_lt hlt)
    have hsplit : calls = calls.take time ++ [call] ++ calls.drop (time + 1) := by
      rw [List.append_assoc, List.singleton_append, ← hget, List.getElem_cons_drop,
        List.take_append_drop]
    have hstored := hstores.append ([call] ++ calls.drop (time + 1))
    rw [← List.append_assoc, ← hsplit] at hstored
    have hpassed := hkept.passed call
    rw [Fate.next, hlength, hmoved] at hpassed
    have hreturned := hpassed.append nofun (calls.drop (time + 1))
    rw [← hsplit] at hreturned
    exact ⟨stored, hstored, hreturned⟩
  · exact Or.inr hpadding

/-!
# The theorem
-/

def Fate.Shows (calls : List Call) (items : List Value) (results : List (Option Value))
    (v : Value) :
    Fate → Prop
  | kept i => items[i]? = some v
  | returned time => results[time]? = some (some v)
  | overwritten time => ∃ index w, calls[time]? = some (.set index w) ∧
      (after (calls.take time)).get? index = some v

theorem Meets.shows {calls : List Call} {items : List Value} {results : List (Option Value)}
    (hrun : runAll calls = .ok (items, results)) {time : Nat} {fate : Fate} {v : Value}
    (h : Meets calls time fate) (hstores : Stores calls time v) :
    fate.Shows calls items results v := by
  rcases denotes_of_runAll hrun with ⟨hdenotes, _, hresults⟩
  cases fate with
  | kept i =>
      rw [Fate.Shows, hdenotes.getElem?_eq i h.within, h.item_eq hstores]
  | returned t =>
      rcases h.exists_exit hstores nofun with ⟨exit, call, i, hget, hi, hitem, hmoved⟩
      rcases Fate.returned_of_moved hi hmoved with ⟨rfl, hresult⟩
      rw [Fate.Shows, hresults, hget, Option.map_some, hresult, hitem]
  | overwritten t =>
      rcases h.exists_exit hstores nofun with ⟨exit, call, i, hget, hi, hitem, hmoved⟩
      rcases Fate.overwritten_of_moved hmoved with ⟨rfl, w, rfl⟩
      refine ⟨i, w, hget, ?_⟩
      rw [Sequence.get?, if_pos hi, hitem]

/-- Calls on an empty array are all accepted just if the sequence that they describe never
gets longer than arrays may be.  Then the array is that sequence, and each call returns
what it returns there, which is nothing where there is nothing.  Each stored value has
exactly one fate, which is borne out by the array or by the results: it is in the array at
an index, one call has returned it or one has overwritten it; and no two values have one
fate.  Whatever else is in the array or has been returned is padding.  Values that are in
the array together and stay in it keep their order. -/
theorem history_accounts_for_values (calls : List Call) :
    ((∃ done, runAll calls = .ok done) ↔ Fits calls) ∧
    ∀ items results, runAll calls = .ok (items, results) →
      items.length = (after calls).length ∧ (∀ i, items[i]? = (after calls).get? i) ∧
      (∀ time, results[time]? = calls[time]?.map (after (calls.take time)).result) ∧
      (∀ time v, Stores calls time v →
        ∃ fate, Meets calls time fate ∧ fate.Shows calls items results v ∧
          (∀ other, Meets calls time other → other = fate) ∧
          ∀ later, Meets calls later fate → later = time) ∧
      (∀ i v, items[i]? = some v →
        (∃ time, Stores calls time v ∧ Meets calls time (.kept i)) ∨ v = .none) ∧
      (∀ time v, results[time]? = some (some v) →
        (∃ stored, Stores calls stored v ∧ Meets calls stored (.returned time)) ∨ v = .none) ∧
      (∀ front first second i j i' j', front <+: calls → i < j →
        Meets front first (.kept i) → Meets front second (.kept j) →
        Meets calls first (.kept i') → Meets calls second (.kept j') → i' < j') ∧
      (items = [] → Call.run items .pop = .ok (items, none) ∧
        Call.run items .pull = .ok (items, none)) := by
  refine ⟨exists_runAll_iff calls, ?_⟩
  intro items results hrun
  rcases denotes_of_runAll hrun with ⟨hdenotes, hlength, hresults⟩
  refine ⟨hdenotes.length_eq, hdenotes.get?_eq, hresults, ?_, ?_, ?_, ?_, ?_⟩
  · intro time v hstores
    rcases hstores.exists_meets with ⟨fate, hfate⟩
    exact ⟨fate, hfate, hfate.shows hrun hstores, fun _ hother => hother.unique hfate,
      fun _ hlater => hlater.injective hfate⟩
  · intro i v hget
    rcases List.getElem?_eq_some_iff.mp hget with ⟨hi, _⟩
    rw [hdenotes.length_eq] at hi
    rw [hdenotes.getElem?_eq i hi] at hget
    cases hget
    exact exists_kept_or_padding hi
  · intro time v hget
    rw [hresults] at hget
    rcases Option.map_eq_some_iff.mp hget with ⟨call, hcall, hresult⟩
    exact exists_returned_or_padding hcall hresult
  · intro front first second i j i' j' hfront hlt hfirst hsecond hfirst' hsecond'
    rcases hfront with ⟨back, rfl⟩
    exact hfirst.order hsecond hlt hfirst' hsecond'
  · intro hempty
    rw [hempty]
    exact ⟨rfl, rfl⟩

def paddedCalls : List Call :=
  [.append (.int 1), .set 2 (.int 2), .prepend (.int 3), .set 1 (.int 4), .pull]

/-- The first value has been overwritten and nothing else; the second one is at the end,
behind padding, and the third one has been returned. -/
theorem history_accounts_for_values_padded :
    runAll paddedCalls =
        .ok ([.int 4, .none, .int 2], [none, none, none, none, some (.int 3)]) ∧
      (∀ fate, Meets paddedCalls 0 fate → fate = .overwritten 3) ∧
      (∃ time, Stores paddedCalls time (.int 2) ∧ Meets paddedCalls time (.kept 2)) ∧
      ∃ time, Stores paddedCalls time (.int 3) ∧ Meets paddedCalls time (.returned 4) := by
  have hrun : runAll paddedCalls =
      .ok ([.int 4, .none, .int 2], [none, none, none, none, some (.int 3)]) := by
    rfl
  have hfirst : Meets paddedCalls 0 (.overwritten 3) :=
    ((((@Meets.stored [] (.append (.int 1)) 0 rfl).passed (.set 2 (.int 2))).passed
      (.prepend (.int 3))).passed (.set 1 (.int 4))).passed .pull
  rcases (history_accounts_for_values paddedCalls).right _ _ hrun with
    ⟨_, _, _, hfates, hkept, hreturned, _⟩
  refine ⟨hrun, ?_, ?_, ?_⟩
  · rcases hfates 0 (.int 1) ⟨_, rfl, rfl⟩ with ⟨fate, _, _, hunique, _⟩
    intro other hother
    rw [hunique other hother, hunique _ hfirst]
  · exact (hkept 2 (.int 2) rfl).resolve_right nofun
  · exact (hreturned 4 (.int 3) rfl).resolve_right nofun

end Items
end Stencil
