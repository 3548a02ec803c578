import Stencil.Dict.Lemmas
import Stencil.Proofs.Path.Lookup
import Stencil.Proofs.Value.Refusal

/-!
# Well-formed values

No dictionary in a well-formed value lists a key twice and no array in it is longer than
arrays may be, at whatever depth.  Every operation on values keeps them well-formed, also
one that fails on its way.
-/

namespace Stencil
namespace Value

inductive WellFormed : Value → Prop where
  | none : WellFormed .none
  | int (n : Int64) : WellFormed (.int n)
  | string (bytes : Bytes) : WellFormed (.string bytes)
  | array {items : List Value} :
      items.length ≤ maxArrayLength → (∀ v ∈ items, WellFormed v) → WellFormed (.array items)
  | dict {d : Dict Value} :
      d.Distinct → (∀ e ∈ d.entries, WellFormed e.2) → WellFormed (.dict d)

namespace WellFormed

/-!
# Parts
-/

theorem length_le {items : List Value} (h : (Value.array items).WellFormed) :
    items.length ≤ maxArrayLength := by
  cases h with
  | array hlength _ =>
      exact hlength

theorem of_mem {items : List Value} (h : (Value.array items).WellFormed) {v : Value}
    (hv : v ∈ items) :
    v.WellFormed := by
  cases h with
  | array _ hitems =>
      exact hitems v hv

theorem distinct {d : Dict Value} (h : (Value.dict d).WellFormed) : d.Distinct := by
  cases h with
  | dict hdistinct _ =>
      exact hdistinct

theorem of_mem_entries {d : Dict Value} (h : (Value.dict d).WellFormed) {e : Bytes × Value}
    (he : e ∈ d.entries) : e.2.WellFormed := by
  cases h with
  | dict _ hentries =>
      exact hentries e he

theorem member {c w : Value} (h : c.WellFormed) (step : Step) (hw : c.member? step = some w) :
    w.WellFormed := by
  cases c with
  | dict d =>
      cases step with
      | name name =>
          exact h.of_mem_entries (Dict.mem_entries_of_get? hw)
      | index i =>
          cases hw
  | array items =>
      cases step with
      | name name =>
          cases hw
      | index i =>
          exact h.of_mem (List.mem_of_getElem? hw)
  | _ =>
      cases hw

theorem follow {c w : Value} (h : c.WellFormed) {steps : List Step}
    (hw : c.follow? steps = some w) :
    w.WellFormed := by
  induction steps generalizing c with
  | nil =>
      cases hw
      exact h
  | cons step rest ih =>
      rw [follow?_cons] at hw
      rcases Option.bind_eq_some_iff.mp hw with ⟨x, hx, hfollow⟩
      exact ih (h.member step hx) hfollow

theorem emptyArray : (Value.array []).WellFormed := by
  apply WellFormed.array (Nat.zero_le _)
  intro v hv
  cases hv

theorem emptyDict : (Value.dict .empty).WellFormed := by
  apply WellFormed.dict Dict.distinct_empty
  intro e he
  cases he

/-!
# Arrays
-/

theorem append {items : List Value} {v : Value} (h : (Value.array items).WellFormed)
    (hv : v.WellFormed) : (Value.array (Items.append items v).1).WellFormed := by
  rcases Nat.lt_or_ge items.length maxArrayLength with hroom | hfull
  · rw [Items.append_of_lt hroom]
    constructor
    · rw [List.length_append, List.length_singleton]
      exact hroom
    · intro u hu
      rcases List.mem_append.mp hu with hold | hnew
      · exact h.of_mem hold
      · rw [List.mem_singleton] at hnew
        rw [hnew]
        exact hv
  · rw [(Items.append_refusedIff items v).receiver_of hfull]
    exact h

theorem prepend {items : List Value} {v : Value} (h : (Value.array items).WellFormed)
    (hv : v.WellFormed) : (Value.array (Items.prepend items v).1).WellFormed := by
  rcases Nat.lt_or_ge items.length maxArrayLength with hroom | hfull
  · rw [Items.prepend_of_lt hroom]
    constructor
    · exact hroom
    · rw [List.forall_mem_cons]
      exact ⟨hv, fun u hu => h.of_mem hu⟩
  · rw [(Items.prepend_refusedIff items v).receiver_of hfull]
    exact h

theorem overwrite {items : List Value} {v : Value} (h : (Value.array items).WellFormed)
    (hv : v.WellFormed) (index : Nat) : (Value.array (items.set index v)).WellFormed := by
  constructor
  · rw [List.length_set]
    exact h.length_le
  · intro u hu
    rcases List.mem_or_eq_of_mem_set hu with hold | hnew
    · exact h.of_mem hold
    · rw [hnew]
      exact hv

theorem set {items : List Value} {v : Value} (h : (Value.array items).WellFormed)
    (hv : v.WellFormed) (index : Nat) :
    (Value.array (Items.set items index v).1).WellFormed := by
  rcases Nat.lt_or_ge index maxArrayLength with hroom | hfull
  · rw [Items.set_of_lt items hroom]
    -- The array is filled up first, and then the element is stored.
    apply WellFormed.overwrite _ hv
    constructor
    · have hlength := h.length_le
      rw [List.length_append, List.length_replicate]
      omega
    · intro u hu
      rcases List.mem_append.mp hu with hold | hnew
      · exact h.of_mem hold
      · rw [List.eq_of_mem_replicate hnew]
        exact WellFormed.none
  · rw [Items.set_of_le items hfull]
    exact h

theorem sublist {items rest : List Value} (h : (Value.array items).WellFormed)
    (hsublist : rest.Sublist items) : (Value.array rest).WellFormed := by
  constructor
  · exact Nat.le_trans hsublist.length_le h.length_le
  · intro u hu
    exact h.of_mem (hsublist.subset hu)

theorem pop {items rest : List Value} {v : Value} (h : (Value.array items).WellFormed)
    (hpop : Items.pop items = some (v, rest)) :
    v.WellFormed ∧ (Value.array rest).WellFormed := by
  rcases Option.map_eq_some_iff.mp hpop with ⟨last, hlast, heq⟩
  cases heq
  exact ⟨h.of_mem (List.mem_of_getLast? hlast), h.sublist (List.dropLast_sublist items)⟩

theorem pull {items rest : List Value} {v : Value} (h : (Value.array items).WellFormed)
    (hpull : Items.pull items = some (v, rest)) :
    v.WellFormed ∧ (Value.array rest).WellFormed := by
  cases items with
  | nil =>
      cases hpull
  | cons first items =>
      cases hpull
      exact ⟨h.of_mem List.mem_cons_self, h.sublist (List.sublist_cons_self v rest)⟩

/-!
# Dictionaries
-/

theorem of_entries {d d' : Dict Value} {key : Bytes} {v : Value}
    (h : (Value.dict d).WellFormed) (hv : v.WellFormed) (hdistinct : d'.Distinct)
    (hentries : ∀ e ∈ d'.entries, e ∈ d.entries ∨ e = (key, v)) :
    (Value.dict d').WellFormed := by
  apply WellFormed.dict hdistinct
  intro e he
  rcases hentries e he with hold | hnew
  · exact h.of_mem_entries hold
  · rw [hnew]
    exact hv

theorem insert {d : Dict Value} {v : Value} (h : (Value.dict d).WellFormed) (key : Bytes)
    (hv : v.WellFormed) : (Value.dict (d.insert key v).1).WellFormed := by
  have hensure : (d.insert key v).1 = d.ensure key v := by
    rw [Dict.insert, Dict.ensure]
    split
    · rfl
    · rfl
  rw [hensure]
  exact h.of_entries hv (h.distinct.ensure key v) fun e he => Dict.mem_entries_ensure he

theorem replace {d : Dict Value} {v : Value} (h : (Value.dict d).WellFormed) (key : Bytes)
    (hv : v.WellFormed) : (Value.dict (d.replace key v)).WellFormed :=
  h.of_entries hv (h.distinct.replace key v) fun _ he => Dict.mem_entries_replace he

theorem update {d : Dict Value} {v : Value} (h : (Value.dict d).WellFormed) (key : Bytes)
    (hv : v.WellFormed) : (Value.dict (d.update key v)).WellFormed :=
  h.of_entries hv (h.distinct.update key v) fun _ he => Dict.mem_entries_update he

theorem put {d : Dict Value} {v : Value} (h : (Value.dict d).WellFormed) (key : Bytes)
    (hv : v.WellFormed) : (Value.dict (d.put key v)).WellFormed :=
  h.of_entries hv (h.distinct.put key v) fun _ he => Dict.mem_entries_put he

theorem remove {d : Dict Value} (h : (Value.dict d).WellFormed) (key : Bytes) :
    (Value.dict (d.remove key)).WellFormed := by
  apply WellFormed.dict (h.distinct.remove key)
  intro e he
  exact h.of_mem_entries (Dict.mem_entries_remove he)

theorem delete {d : Dict Value} (h : (Value.dict d).WellFormed) (key : Bytes) :
    (Value.dict (d.delete key).1).WellFormed := by
  rw [Dict.delete]
  split
  · exact h.remove key
  · exact h.remove key

theorem ofList {entries : List (Bytes × Value)} (h : ∀ e ∈ entries, e.2.WellFormed) :
    (Value.dict (.ofList entries)).WellFormed := by
  -- Each step of the fold stores one more entry in a well-formed dictionary.
  have hfold : ∀ d : Dict Value, (Value.dict d).WellFormed →
      (Value.dict (entries.foldl (fun d e => d.replace e.1 e.2) d)).WellFormed := by
    induction entries with
    | nil =>
        intro d hd
        exact hd
    | cons e rest ih =>
        rw [List.forall_mem_cons] at h
        intro d hd
        exact ih h.right _ (hd.replace e.1 h.left)
  exact hfold .empty emptyDict

end WellFormed
end Value
end Stencil
