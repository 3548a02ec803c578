import Mathlib.Data.List.Induction
import Mathlib.Data.Set.Card
import Stencil.Proofs.Value.Refusal

/-!
# The history of a dictionary

What a dictionary holds, and in which order, can be read off the calls that have led to
it.  A call has the number of calls before it as its time; what matters about a key is
which calls came last: the one that added it or removed it, the one that placed it and the
one that stored its value.
-/

namespace Stencil
namespace Dict

inductive Call where
  | insert (key : Bytes) (v : Value)
  | replace (key : Bytes) (v : Value)
  | remove (key : Bytes)
  | delete (key : Bytes)
  | overwrite (key : Bytes) (v : Value)
  | ensure (key : Bytes) (v : Value)

namespace Call

def run (d : Dict Value) : Call → Dict Value
  | insert key v => (d.insert key v).1
  | replace key v => d.replace key v
  | remove key => d.remove key
  | delete key => (d.delete key).1
  | overwrite key v => d.update key v
  | ensure key v => d.ensure key v

def key : Call → Bytes
  | insert key _ => key
  | replace key _ => key
  | remove key => key
  | delete key => key
  | overwrite key _ => key
  | ensure key _ => key

def value? : Call → Option Value
  | insert _ v => some v
  | replace _ v => some v
  | remove _ => none
  | delete _ => none
  | overwrite _ v => some v
  | ensure _ v => some v

end Call

def after (calls : List Call) : Dict Value :=
  calls.foldl Call.run empty

/-!
# Histories
-/

section Time

variable (P : List Call → Call → Prop)

/-- At a time there is a call with a property, given the calls before it. -/
def Occurs (calls : List Call) (time : Nat) (call : Call) : Prop :=
  calls[time]? = some call ∧ P (calls.take time) call

def Latest (calls : List Call) (time : Nat) (call : Call) : Prop :=
  Occurs P calls time call ∧ ∀ other earlier, Occurs P calls other earlier → other ≤ time

end Time

inductive Adds (key : Bytes) (before : List Call) : Call → Prop where
  | insert (v : Value) : Adds key before (.insert key v)
  | replace (v : Value) : Adds key before (.replace key v)
  | ensure (v : Value) : Adds key before (.ensure key v)

inductive Removes (key : Bytes) (before : List Call) : Call → Prop where
  | remove : Removes key before (.remove key)
  | delete : Removes key before (.delete key)

def Live (calls : List Call) (key : Bytes) : Prop :=
  ∃ added call, Latest (Adds key) calls added call ∧
    ∀ removed other, Latest (Removes key) calls removed other → removed < added

/-- Calls that put the entry of the key at the end. -/
inductive Places (key : Bytes) (before : List Call) : Call → Prop where
  | replace (v : Value) : Places key before (.replace key v)
  | insert (v : Value) : ¬ Live before key → Places key before (.insert key v)
  | ensure (v : Value) : ¬ Live before key → Places key before (.ensure key v)

inductive Stores (key : Bytes) (before : List Call) : Call → Prop where
  | place {call : Call} : Places key before call → Stores key before call
  | overwrite (v : Value) : Live before key → Stores key before (.overwrite key v)

def LastStored (calls : List Call) (key : Bytes) (v : Value) : Prop :=
  ∃ time call, Latest (Stores key) calls time call ∧ call.value? = some v

/-!
# The latest call
-/

section Time

variable {P : List Call → Call → Prop} {calls : List Call} {time : Nat} {call : Call}

theorem Occurs.time_lt (h : Occurs P calls time call) : time < calls.length :=
  (List.getElem?_eq_some_iff.mp h.left).choose

theorem not_occurs_nil : ¬ Occurs P [] time call := by
  intro h
  cases h.time_lt

theorem occurs_snoc (next : Call) :
    Occurs P (calls ++ [next]) time call ↔
      Occurs P calls time call ∨ time = calls.length ∧ call = next ∧ P calls next := by
  rcases Nat.lt_trichotomy time calls.length with hlt | rfl | hgt
  · have hne : time ≠ calls.length := Nat.ne_of_lt hlt
    rw [Occurs, Occurs, List.getElem?_append_left hlt,
      List.take_append_of_le_length (Nat.le_of_lt hlt)]
    simp [hne]
  · have hend : ¬ Occurs P calls calls.length call := fun h => Nat.lt_irrefl _ h.time_lt
    rw [Occurs, List.getElem?_concat_length, List.take_left, Option.some.injEq]
    constructor
    · intro h
      rcases h with ⟨rfl, hP⟩
      exact Or.inr ⟨rfl, rfl, hP⟩
    · intro h
      rcases h with hold | ⟨_, rfl, hP⟩
      · exact absurd hold hend
      · exact ⟨rfl, hP⟩
  · have hne : time ≠ calls.length := Nat.ne_of_gt hgt
    have hend : ¬ Occurs P calls time call := fun h => Nat.lt_asymm hgt h.time_lt
    have hlong : ¬ Occurs P (calls ++ [next]) time call := by
      intro h
      have hlt := h.time_lt
      rw [List.length_append, List.length_singleton] at hlt
      omega
    simp [hend, hlong, hne]

theorem latest_snoc_of_pos {next : Call} (hnext : P calls next) :
    Latest P (calls ++ [next]) time call ↔ time = calls.length ∧ call = next := by
  constructor
  · intro h
    rcases h with ⟨hoccurs, hlast⟩
    have hle := hlast _ _ ((occurs_snoc next).mpr (Or.inr ⟨rfl, rfl, hnext⟩))
    rcases (occurs_snoc next).mp hoccurs with hold | ⟨htime, hcall, _⟩
    · exact absurd hold.time_lt (Nat.not_lt.mpr hle)
    · exact ⟨htime, hcall⟩
  · intro h
    rcases h with ⟨rfl, rfl⟩
    refine ⟨(occurs_snoc call).mpr (Or.inr ⟨rfl, rfl, hnext⟩), ?_⟩
    intro other earlier hother
    rcases (occurs_snoc call).mp hother with hold | ⟨rfl, _, _⟩
    · exact Nat.le_of_lt hold.time_lt
    · exact Nat.le_refl _

theorem latest_snoc_of_neg {next : Call} (h : ¬ P calls next) :
    Latest P (calls ++ [next]) time call ↔ Latest P calls time call := by
  have hoccurs : ∀ time call, Occurs P (calls ++ [next]) time call ↔
      Occurs P calls time call := by
    intro time call
    rw [occurs_snoc]
    simp [h]
  rw [Latest, Latest, hoccurs]
  simp only [hoccurs]

end Time

/-!
# Live keys
-/

theorem not_live_nil (key : Bytes) : ¬ Live [] key := by
  intro h
  rcases h with ⟨added, call, hadded, _⟩
  exact not_occurs_nil hadded.left

theorem Adds.not_removes {key : Bytes} {before : List Call} {call : Call}
    (h : Adds key before call) : ¬ Removes key before call := by
  intro hremoves
  cases hremoves with
  | remove =>
      cases h
  | delete =>
      cases h

theorem live_snoc_of_adds {calls : List Call} {key : Bytes} {next : Call}
    (h : Adds key calls next) : Live (calls ++ [next]) key := by
  refine ⟨calls.length, next, (latest_snoc_of_pos h).mpr ⟨rfl, rfl⟩, ?_⟩
  intro removed other hremoved
  rw [latest_snoc_of_neg h.not_removes] at hremoved
  exact hremoved.left.time_lt

theorem not_live_snoc_of_removes {calls : List Call} {key : Bytes} {next : Call}
    (hremoves : Removes key calls next) : ¬ Live (calls ++ [next]) key := by
  intro h
  rcases h with ⟨added, call, hadded, hlater⟩
  have hnot : ¬ Adds key calls next := fun hadds => hadds.not_removes hremoves
  rw [latest_snoc_of_neg hnot] at hadded
  have hlt := hlater _ _ ((latest_snoc_of_pos hremoves).mpr ⟨rfl, rfl⟩)
  exact Nat.lt_asymm hlt hadded.left.time_lt

theorem live_snoc_of_neither {calls : List Call} {key : Bytes} {next : Call}
    (hadds : ¬ Adds key calls next) (hremoves : ¬ Removes key calls next) :
    Live (calls ++ [next]) key ↔ Live calls key := by
  rw [Live, Live]
  simp only [latest_snoc_of_neg hadds, latest_snoc_of_neg hremoves]

theorem Adds.key_eq {key : Bytes} {before : List Call} {call : Call}
    (h : Adds key before call) :
    call.key = key := by
  cases h with
  | insert v =>
      rfl
  | replace v =>
      rfl
  | ensure v =>
      rfl

theorem Removes.key_eq {key : Bytes} {before : List Call} {call : Call}
    (h : Removes key before call) : call.key = key := by
  cases h with
  | remove =>
      rfl
  | delete =>
      rfl

theorem Removes.value?_eq_none {key : Bytes} {before : List Call} {call : Call}
    (h : Removes key before call) : call.value? = none := by
  cases h with
  | remove =>
      rfl
  | delete =>
      rfl

theorem Places.adds {key : Bytes} {before : List Call} {call : Call}
    (h : Places key before call) :
    Adds key before call := by
  cases h with
  | replace v =>
      exact Adds.replace v
  | insert v _ =>
      exact Adds.insert v
  | ensure v _ =>
      exact Adds.ensure v

theorem Adds.places {key : Bytes} {before : List Call} {call : Call} (h : Adds key before call)
    (hmissing : ¬ Live before key) : Places key before call := by
  cases h with
  | insert v =>
      exact Places.insert v hmissing
  | replace v =>
      exact Places.replace v
  | ensure v =>
      exact Places.ensure v hmissing

theorem live_snoc {calls : List Call} {key : Bytes} {next : Call} :
    Live (calls ++ [next]) key ↔
      Places key calls next ∨ Live calls key ∧ ¬ Removes key calls next := by
  by_cases hadds : Adds key calls next
  · by_cases hlive : Live calls key
    · exact iff_of_true (live_snoc_of_adds hadds) (Or.inr ⟨hlive, hadds.not_removes⟩)
    · exact iff_of_true (live_snoc_of_adds hadds) (Or.inl (hadds.places hlive))
  · have hplaces : ¬ Places key calls next := fun h => hadds h.adds
    by_cases hremoves : Removes key calls next
    · simp [not_live_snoc_of_removes hremoves, hplaces, hremoves]
    · simp [live_snoc_of_neither hadds hremoves, hplaces, hremoves]

/-!
# What a call does to the keys
-/

theorem run_insert (d : Dict Value) (key : Bytes) (v : Value) :
    Call.run d (.insert key v) = d.ensure key v := by
  rw [Call.run, insert, ensure]
  split
  · rfl
  · rfl

theorem run_delete (d : Dict Value) (key : Bytes) :
    Call.run d (.delete key) = d.remove key := by
  rw [Call.run, delete]
  split
  · rfl
  · rfl

theorem Distinct.run {d : Dict Value} (h : d.Distinct) (call : Call) :
    (call.run d).Distinct := by
  cases call with
  | insert key v =>
      rw [run_insert]
      exact h.ensure key v
  | replace key v =>
      exact h.replace key v
  | remove key =>
      exact h.remove key
  | delete key =>
      rw [run_delete]
      exact h.remove key
  | overwrite key v =>
      exact h.update key v
  | ensure key v =>
      exact h.ensure key v

def Tracks (calls : List Call) (d : Dict Value) : Prop :=
  ∀ key, key ∈ d.keys ↔ Live calls key

theorem keys_ensure_of_notMem {d : Dict Value} {key : Bytes} (h : key ∉ d.keys) (v : Value) :
    (d.ensure key v).keys = d.keys.filter (· != key) ++ [key] := by
  have hkeys := congrArg keys (remove_of_notMem h)
  rw [keys_remove] at hkeys
  rw [mem_keys_iff] at h
  rw [keys_ensure, if_neg h, hkeys]

section Keys

variable {calls : List Call} {d : Dict Value} {call : Call} {key : Bytes}

theorem Tracks.keys_run_of_places (h : Tracks calls d) (hplaces : Places key calls call) :
    (call.run d).keys = d.keys.filter (· != key) ++ [key] := by
  cases hplaces with
  | replace v =>
      exact keys_replace d key v
  | insert v hmissing =>
      rw [← h] at hmissing
      rw [run_insert]
      exact keys_ensure_of_notMem hmissing v
  | ensure v hmissing =>
      rw [← h] at hmissing
      exact keys_ensure_of_notMem hmissing v

theorem keys_run_of_removes (d : Dict Value) (hremoves : Removes key calls call) :
    (call.run d).keys = d.keys.filter (· != key) := by
  cases hremoves with
  | remove =>
      exact keys_remove d key
  | delete =>
      rw [run_delete]
      exact keys_remove d key

theorem Tracks.keys_run_of_neither (h : Tracks calls d)
    (hplaces : ¬ Places call.key calls call) (hremoves : ¬ Removes call.key calls call)
    : (call.run d).keys = d.keys := by
  cases call with
  | insert key v =>
      have hlive : Live calls key :=
        by_contra fun hmissing => hplaces (Places.insert v hmissing)
      rw [← h] at hlive
      rw [run_insert, ensure_of_mem hlive]
  | replace key v =>
      exact absurd (Places.replace v) hplaces
  | remove key =>
      exact absurd Removes.remove hremoves
  | delete key =>
      exact absurd Removes.delete hremoves
  | overwrite key v =>
      exact keys_update d key v
  | ensure key v =>
      have hlive : Live calls key :=
        by_contra fun hmissing => hplaces (Places.ensure v hmissing)
      rw [← h] at hlive
      rw [Call.run, ensure_of_mem hlive]

theorem Tracks.mem_keys_run_of_ne (h : Tracks calls d) (hne : key ≠ call.key) :
    key ∈ (call.run d).keys ↔ key ∈ d.keys := by
  by_cases hplaces : Places call.key calls call
  · rw [h.keys_run_of_places hplaces]
    simp [hne]
  · by_cases hremoves : Removes call.key calls call
    · rw [keys_run_of_removes d hremoves]
      simp [hne]
    · rw [h.keys_run_of_neither hplaces hremoves]

theorem Tracks.run (h : Tracks calls d) (call : Call) :
    Tracks (calls ++ [call]) (call.run d) := by
  intro key
  rw [live_snoc]
  by_cases hkey : key = call.key
  · subst hkey
    by_cases hplaces : Places call.key calls call
    · rw [h.keys_run_of_places hplaces]
      simp [hplaces]
    · by_cases hremoves : Removes call.key calls call
      · rw [keys_run_of_removes d hremoves]
        simp [hplaces, hremoves]
      · rw [h.keys_run_of_neither hplaces hremoves, h]
        simp [hplaces, hremoves]
  · have hplaces : ¬ Places key calls call := fun hplaces => hkey hplaces.adds.key_eq.symm
    have hremoves : ¬ Removes key calls call := fun hremoves => hkey hremoves.key_eq.symm
    rw [h.mem_keys_run_of_ne hkey, h]
    simp [hplaces, hremoves]

end Keys

/-!
# What a call does to the order
-/

/-- Whenever the first key was last placed, it was before the second one was last
placed. -/
def PlacedBefore (calls : List Call) (first second : Bytes) : Prop :=
  ∀ i call j other, Latest (Places first) calls i call →
    Latest (Places second) calls j other → i < j

section Order

variable {calls : List Call} {d : Dict Value} {next : Call} {first second key : Bytes}

theorem PlacedBefore.snoc (h : PlacedBefore calls first second)
    (hfirst : ¬ Places first calls next) (hsecond : ¬ Places second calls next)
    : PlacedBefore (calls ++ [next]) first second := by
  intro i call j other hi hj
  rw [latest_snoc_of_neg hfirst] at hi
  rw [latest_snoc_of_neg hsecond] at hj
  exact h i call j other hi hj

theorem placedBefore_snoc_of_places (hfirst : ¬ Places first calls next)
    (hsecond : Places second calls next) : PlacedBefore (calls ++ [next]) first second := by
  intro i call j other hi hj
  rw [latest_snoc_of_neg hfirst] at hi
  rcases (latest_snoc_of_pos hsecond).mp hj with ⟨rfl, _⟩
  exact hi.left.time_lt

theorem Places.not_places_of_ne (h : Places key calls next) (hne : first ≠ key) :
    ¬ Places first calls next := by
  intro hfirst
  exact hne (hfirst.adds.key_eq.symm.trans h.adds.key_eq)

def Ordered (calls : List Call) (d : Dict Value) : Prop :=
  d.keys.Pairwise (PlacedBefore calls)

theorem Ordered.run_of_places (h : Ordered calls d) (htracks : Tracks calls d)
    (hplaces : Places key calls next) : Ordered (calls ++ [next]) (next.run d) := by
  have hother : ∀ other ∈ d.keys.filter (· != key), ¬ Places other calls next := by
    intro other hmem
    exact hplaces.not_places_of_ne (bne_iff_ne.mp (List.mem_filter.mp hmem).right)
  rw [Ordered, htracks.keys_run_of_places hplaces, List.pairwise_append]
  refine ⟨?_, List.pairwise_singleton _ _, ?_⟩
  · refine (List.Pairwise.sublist List.filter_sublist h).imp_of_mem ?_
    intro first second hfirst hsecond hbefore
    exact hbefore.snoc (hother first hfirst) (hother second hsecond)
  · intro first hfirst second hsecond
    rw [List.mem_singleton] at hsecond
    subst hsecond
    exact placedBefore_snoc_of_places (hother first hfirst) hplaces

theorem Ordered.run (h : Ordered calls d) (htracks : Tracks calls d) (next : Call) :
    Ordered (calls ++ [next]) (next.run d) := by
  by_cases hplaces : Places next.key calls next
  · exact h.run_of_places htracks hplaces
  · have hnone : ∀ key, ¬ Places key calls next := by
      intro key hkey
      have hown := hkey.adds.key_eq
      subst hown
      exact hplaces hkey
    have hsublist : (next.run d).keys.Sublist d.keys := by
      by_cases hremoves : Removes next.key calls next
      · rw [keys_run_of_removes d hremoves]
        exact List.filter_sublist
      · rw [htracks.keys_run_of_neither hplaces hremoves]
    refine (List.Pairwise.sublist hsublist h).imp ?_
    intro first second hbefore
    exact hbefore.snoc (hnone first) (hnone second)

end Order

theorem exists_latest_places {calls : List Call} {key : Bytes} (h : Live calls key) :
    ∃ time call, Latest (Places key) calls time call := by
  induction calls using List.reverseRecOn with
  | nil =>
      exact absurd h (not_live_nil key)
  | append_singleton calls next ih =>
      by_cases hplaces : Places key calls next
      · exact ⟨_, _, (latest_snoc_of_pos hplaces).mpr ⟨rfl, rfl⟩⟩
      · rcases live_snoc.mp h with hnow | ⟨hlive, _⟩
        · exact absurd hnow hplaces
        · rcases ih hlive with ⟨time, call, hlatest⟩
          exact ⟨time, call, (latest_snoc_of_neg hplaces).mpr hlatest⟩

/-!
# What a call does to the values
-/

section Values

variable {calls : List Call} {d : Dict Value} {call : Call} {key : Bytes}

theorem Tracks.get?_run_of_stores (h : Tracks calls d) (hstores : Stores key calls call) :
    (call.run d).get? key = call.value? := by
  cases hstores with
  | place hplaces =>
      cases hplaces with
      | replace v =>
          exact get?_replace_self d key v
      | insert v hmissing =>
          rw [← h, ← get?_eq_none_iff] at hmissing
          rw [run_insert, get?_ensure, if_pos rfl, hmissing]
          rfl
      | ensure v hmissing =>
          rw [← h, ← get?_eq_none_iff] at hmissing
          rw [Call.run, get?_ensure, if_pos rfl, hmissing]
          rfl
  | overwrite v hlive =>
      rw [← h, mem_keys_iff, contains, Option.isSome_iff_exists] at hlive
      rcases hlive with ⟨earlier, hget⟩
      rw [Call.run, get?_update, if_pos rfl, hget]
      rfl

theorem get?_run_of_removes (d : Dict Value) (hremoves : Removes key calls call) :
    (call.run d).get? key = none := by
  cases hremoves with
  | remove =>
      exact get?_remove_self d key
  | delete =>
      rw [run_delete]
      exact get?_remove_self d key

theorem get?_ensure_of_found {other : Bytes} (hfound : other = key → other ∈ d.keys)
    (v : Value) :
    (d.ensure key v).get? other = d.get? other := by
  by_cases hkey : other = key
  · have hmem := hfound hkey
    subst hkey
    rw [ensure_of_mem hmem]
  · rw [get?_ensure, if_neg hkey]

theorem Tracks.get?_run_of_neither (h : Tracks calls d) (hstores : ¬ Stores key calls call)
    (hremoves : ¬ Removes key calls call) : (call.run d).get? key = d.get? key := by
  cases call with
  | insert name v =>
      rw [run_insert]
      apply get?_ensure_of_found
      intro hkey
      subst hkey
      rw [h]
      exact by_contra fun hmissing => hstores (Stores.place (Places.insert v hmissing))
  | replace name v =>
      apply get?_replace_of_ne
      intro hkey
      subst hkey
      exact hstores (Stores.place (Places.replace v))
  | remove name =>
      apply get?_remove_of_ne
      intro hkey
      subst hkey
      exact hremoves Removes.remove
  | delete name =>
      rw [run_delete]
      apply get?_remove_of_ne
      intro hkey
      subst hkey
      exact hremoves Removes.delete
  | overwrite name v =>
      rw [Call.run, get?_update]
      by_cases hkey : key = name
      · subst hkey
        have hmissing : key ∉ d.keys := by
          rw [h]
          exact fun hlive => hstores (Stores.overwrite v hlive)
        rw [if_pos rfl, (d.get?_eq_none_iff key).mpr hmissing]
        rfl
      · rw [if_neg hkey]
  | ensure name v =>
      apply get?_ensure_of_found
      intro hkey
      subst hkey
      rw [h]
      exact by_contra fun hmissing => hstores (Stores.place (Places.ensure v hmissing))

theorem lastStored_snoc_of_pos {next : Call} (h : Stores key calls next) (v : Value) :
    LastStored (calls ++ [next]) key v ↔ next.value? = some v := by
  constructor
  · intro hstored
    rcases hstored with ⟨time, call, hlatest, hvalue⟩
    rcases (latest_snoc_of_pos h).mp hlatest with ⟨_, rfl⟩
    exact hvalue
  · intro hvalue
    exact ⟨_, _, (latest_snoc_of_pos h).mpr ⟨rfl, rfl⟩, hvalue⟩

theorem lastStored_snoc_of_neg {next : Call} (h : ¬ Stores key calls next) (v : Value) :
    LastStored (calls ++ [next]) key v ↔ LastStored calls key v := by
  rw [LastStored, LastStored]
  simp only [latest_snoc_of_neg h]

theorem Stores.live_snoc {next : Call} (h : Stores key calls next) :
    Live (calls ++ [next]) key := by
  rw [Dict.live_snoc]
  cases h with
  | place hplaces =>
      exact Or.inl hplaces
  | overwrite v hlive =>
      have hremoves : ¬ Removes key calls (.overwrite key v) := by
        intro h
        cases h
      exact Or.inr ⟨hlive, hremoves⟩

def Remembers (calls : List Call) (d : Dict Value) : Prop :=
  ∀ key v, d.get? key = some v ↔ Live calls key ∧ LastStored calls key v

theorem Remembers.run (h : Remembers calls d) (htracks : Tracks calls d) (next : Call) :
    Remembers (calls ++ [next]) (next.run d) := by
  intro key v
  by_cases hstores : Stores key calls next
  · rw [htracks.get?_run_of_stores hstores, lastStored_snoc_of_pos hstores]
    simp [hstores.live_snoc]
  · have hplaces : ¬ Places key calls next := fun hplaces => hstores (Stores.place hplaces)
    rw [lastStored_snoc_of_neg hstores, Dict.live_snoc]
    by_cases hremoves : Removes key calls next
    · rw [get?_run_of_removes d hremoves]
      simp [hplaces, hremoves]
    · rw [htracks.get?_run_of_neither hstores hremoves, h]
      simp [hplaces, hremoves]

end Values

/-!
# Whole histories
-/

theorem after_snoc (calls : List Call) (next : Call) :
    after (calls ++ [next]) = next.run (after calls) := by
  rw [after, List.foldl_append]
  rfl

structure Reflects (calls : List Call) (d : Dict Value) : Prop where
  distinct : d.Distinct
  tracks : Tracks calls d
  ordered : Ordered calls d
  remembers : Remembers calls d

theorem reflects_empty : Reflects [] empty := by
  refine ⟨distinct_empty, ?_, List.Pairwise.nil, ?_⟩
  · intro key
    exact iff_of_false List.not_mem_nil (not_live_nil key)
  · intro key v
    have hnone : (empty : Dict Value).get? key ≠ some v := by
      rw [get?_empty]
      intro h
      cases h
    exact iff_of_false hnone fun h => not_live_nil key h.left

theorem Reflects.run {calls : List Call} {d : Dict Value} (h : Reflects calls d)
    (next : Call) :
    Reflects (calls ++ [next]) (next.run d) :=
  ⟨h.distinct.run next, h.tracks.run next, h.ordered.run h.tracks next,
    h.remembers.run h.tracks next⟩

theorem reflects_after (calls : List Call) : Reflects calls (after calls) := by
  induction calls using List.reverseRecOn with
  | nil =>
      exact reflects_empty
  | append_singleton calls next ih =>
      rw [after_snoc]
      exact ih.run next

theorem keys_after_of_not_places {calls : List Call} {next : Call} {v : Value}
    (hvalue : next.value? = some v) (hplaces : ¬ Places next.key calls next) :
    (after (calls ++ [next])).keys = (after calls).keys := by
  have hremoves : ¬ Removes next.key calls next := by
    intro h
    rw [h.value?_eq_none] at hvalue
    cases hvalue
  rw [after_snoc]
  exact (reflects_after calls).tracks.keys_run_of_neither hplaces hremoves

/-!
# The theorem
-/

/-- Whatever calls a dictionary has come from: its keys are the live ones, each of them
once, in the order in which they were last placed; under each there is the value that was
last stored for it; and its size is the number of live keys.  A key is placed by whatever
replaces it and by an insertion that finds it missing; writing to an entry in place, a
refused insertion and looking for a key that is there move nothing.  Making a dictionary
of pairs is to replace one after the other. -/
theorem history_determines_entries (calls : List Call) :
    (∀ key, key ∈ (after calls).keys ↔ Live calls key) ∧
    (after calls).keys.Nodup ∧
    (∀ key, Live calls key → ∃ time call, Latest (Places key) calls time call) ∧
    (after calls).keys.Pairwise (PlacedBefore calls) ∧
    (∀ key v, (after calls).get? key = some v ↔ Live calls key ∧ LastStored calls key v) ∧
    (∀ key v, (key, v) ∈ (after calls).entries ↔ Live calls key ∧ LastStored calls key v) ∧
    (after calls).size = {key | Live calls key}.ncard ∧
    (∀ key v, ((after calls).insert key v).2 = .ok () ↔ ¬ Live calls key) ∧
    (∀ key v, (after (calls ++ [.overwrite key v])).keys = (after calls).keys ∧
      (Live calls key →
        (after (calls ++ [.insert key v])).keys = (after calls).keys ∧
        (after (calls ++ [.ensure key v])).keys = (after calls).keys)) ∧
    (∀ pairs : List (Bytes × Value),
      ofList pairs = after (pairs.map fun pair => .replace pair.1 pair.2)) := by
  rcases reflects_after calls with ⟨hdistinct, htracks, hordered, hremembers⟩
  refine ⟨htracks, hdistinct, fun _ => exists_latest_places, hordered, hremembers,
    ?_, ?_, ?_, ?_, ?_⟩
  · intro key v
    rw [← hremembers]
    exact ⟨fun hmem => hdistinct.get?_of_mem hmem, mem_entries_of_get?⟩
  · have hset : {key | Live calls key} = ((after calls).keys.toFinset : Set Bytes) := by
      ext key
      rw [Set.mem_ofPred_eq, Finset.mem_coe, List.mem_toFinset, htracks]
    rw [hset, Set.ncard_coe_finset, List.toFinset_card_of_nodup hdistinct, keys,
      List.length_map]
    rfl
  · intro key v
    rw [(insert_refusedIff _ key v).accepted, htracks]
  · intro key v
    have hplaces : ¬ Places key calls (.overwrite key v) := by
      intro h
      cases h
    refine ⟨keys_after_of_not_places rfl hplaces, ?_⟩
    intro hlive
    constructor
    · apply keys_after_of_not_places rfl
      intro h
      cases h with
      | insert _ hmissing =>
          exact hmissing hlive
    · apply keys_after_of_not_places rfl
      intro h
      cases h with
      | ensure _ hmissing =>
          exact hmissing hlive
  · intro pairs
    rw [ofList, after, List.foldl_map]
    rfl

/-- The replaced key comes last, a refused insertion changes nothing, and the key whose
entry is written to stays where it is. -/
def mixedCalls : List Call :=
  [.insert [0x61] (.int 1), .insert [0x62] (.int 2), .replace [0x61] (.int 3),
    .insert [0x62] (.int 4), .overwrite [0x62] (.int 5)]

theorem history_determines_entries_mixed :
    Live mixedCalls [0x62] ∧ LastStored mixedCalls [0x62] (.int 5) ∧
      PlacedBefore mixedCalls [0x62] [0x61] ∧
      (after (mixedCalls ++ [.insert [0x62] (.int 6)])).keys = [[0x62], [0x61]] := by
  rcases history_determines_entries mixedCalls with
    ⟨_, _, _, hordered, hstored, _, _, _, hmoves, _⟩
  have hkeys : (after mixedCalls).keys = [[0x62], [0x61]] := by
    rfl
  have hget : (after mixedCalls).get? [0x62] = some (.int 5) := by
    rfl
  rcases (hstored _ _).mp hget with ⟨hlive, hlast⟩
  rw [hkeys, List.pairwise_pair] at hordered
  refine ⟨hlive, hlast, hordered, ?_⟩
  rw [((hmoves _ (.int 6)).right hlive).left, hkeys]

end Dict
end Stencil
