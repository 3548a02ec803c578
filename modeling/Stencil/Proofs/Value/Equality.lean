import Stencil.Dict.Lemmas
import Stencil.Proofs.Path.Container
import Stencil.Value.Equality

/-!
# Structural equality member by member

Two arrays are structurally equal when they are so at each index, two
dictionaries when they are so under each key; for dictionaries that takes for
granted that no key is listed twice.
-/

namespace Stencil
namespace Value

inductive Distinct : Value → Prop where
  | intro {v : Value} :
      (∀ d, v = .dict d → d.Distinct) →
      (∀ step w, v.member? step = some w → Distinct w) → Distinct v

namespace Distinct

theorem keys {d : Dict Value} (h : (dict d).Distinct) : d.Distinct := by
  cases h with
  | intro hkeys _ =>
      exact hkeys d rfl

theorem member {v w : Value} (h : v.Distinct) {step : Step}
    (hmember : v.member? step = some w) :
    w.Distinct := by
  cases h with
  | intro _ hmembers =>
      exact hmembers step w hmember

theorem follow {c v : Value} {steps : List Step} (hc : c.Distinct)
    (h : c.follow? steps = some v) : v.Distinct := by
  induction steps generalizing c with
  | nil =>
      cases h
      exact hc
  | cons step rest ih =>
      rw [follow?_cons] at h
      rcases Option.bind_eq_some_iff.mp h with ⟨x, hx, hrest⟩
      exact ih (hc.member hx) hrest

theorem of_memberless {v : Value} (hdict : ∀ d, v ≠ .dict d)
    (hnone : ∀ step, v.member? step = .none) : v.Distinct := by
  constructor
  · intro d hd
    exact absurd hd (hdict d)
  · intro step w hw
    rw [hnone step] at hw
    cases hw

theorem none : Value.none.Distinct := of_memberless nofun fun _ => rfl

theorem int (n : Int64) : (Value.int n).Distinct := of_memberless nofun fun _ => rfl

theorem string (bytes : Bytes) : (Value.string bytes).Distinct :=
    of_memberless nofun fun _ => rfl

theorem container (step : Step) : step.container.Distinct := by
  constructor
  · intro d hd
    cases step with
    | name name =>
        cases hd
        exact Dict.distinct_empty
    | index i =>
        cases hd
  · intro other w hw
    rw [member?_container] at hw
    cases hw

end Distinct

/-!
# Arrays
-/

theorem sameItems_iff (as bs : List Value) :
    sameItems as bs = true ↔
      as.length = bs.length ∧
        ∀ (i : Nat) a b, as[i]? = some a → bs[i]? = some b → same a b = true := by
  induction as generalizing bs with
  | nil =>
      cases bs with
      | nil =>
          simp [sameItems]
      | cons b bs =>
          simp [sameItems]
  | cons a as ih =>
      cases bs with
      | nil =>
          simp [sameItems]
      | cons b bs =>
          rw [sameItems, Bool.and_eq_true, ih, List.length_cons, List.length_cons]
          constructor
          · rintro ⟨hhead, hlength, hrest⟩
            refine ⟨congrArg (· + 1) hlength, ?_⟩
            intro i x y hx hy
            cases i with
            | zero =>
                cases hx
                cases hy
                exact hhead
            | succ i =>
                exact hrest i x y hx hy
          · rintro ⟨hlength, hitems⟩
            exact ⟨hitems 0 a b rfl rfl, Nat.succ.inj hlength, fun i => hitems (i + 1)⟩

/-!
# Dictionaries
-/

theorem sameEntries_iff (entries : List (Bytes × Value)) (d : Dict Value) :
    sameEntries entries d = true ↔
      ∀ e ∈ entries, ∃ w, d.get? e.1 = some w ∧ same e.2 w = true := by
  induction entries with
  | nil =>
      simp [sameEntries]
  | cons e rest ih =>
      rw [sameEntries, Bool.and_eq_true, ih, List.forall_mem_cons]
      cases d.get? e.1 with
      | none =>
          simp
      | some w =>
          simp

theorem same_dict_of_get? {d d' : Dict Value} (hd : d.Distinct) (hd' : d'.Distinct)
    (hmissing : ∀ key, d.get? key = .none → d'.get? key = .none)
    (hsame : ∀ key v, d.get? key = some v → ∃ w, d'.get? key = some w ∧ same v w = true) :
    same (.dict d) (.dict d') = true := by
  have hkeys : ∀ key, key ∈ d.keys ↔ key ∈ d'.keys := by
    intro key
    rw [Dict.mem_keys_iff, Dict.mem_keys_iff, Dict.contains, Dict.contains]
    cases hget : d.get? key with
    | none =>
        rw [hmissing key hget]
    | some v =>
        rcases hsame key v hget with ⟨w, hw, _⟩
        rw [hw]
        rfl
  rw [same, Bool.and_eq_true, sameEntries_iff]
  constructor
  · exact beq_iff_eq.mpr (hd.size_eq hd' hkeys)
  · intro e he
    exact hsame e.1 e.2 (hd.get?_of_mem he)

/-!
# Equal containers
-/

theorem same_of_member? {a b : Value} (ha : a.Distinct) (hb : b.Distinct) {step : Step}
    (hadmits : a.Admits step) (hadmits' : b.Admits step)
    (hmissing : ∀ step, a.member? step = .none → b.member? step = .none)
    (hsame : ∀ step v, a.member? step = some v →
      ∃ w, b.member? step = some w ∧ same v w = true) :
    same a b = true := by
  rcases hadmits.exists_container with ⟨d, name, rfl, rfl⟩ | ⟨items, i, rfl, rfl⟩
  · cases b with
    | dict d' =>
        exact same_dict_of_get? ha.keys hb.keys (fun key => hmissing (.name key))
          (fun key => hsame (.name key))
    | _ =>
        cases hadmits'
  · cases b with
    | array items' =>
        rw [same, sameItems_iff]
        have hlengths : items.length = items'.length := by
          have hle := List.getElem?_eq_none_iff.mp
            (hmissing (.index items.length) (List.getElem?_eq_none (Nat.le_refl _)))
          refine Nat.le_antisymm (Nat.not_lt.mp ?_) hle
          intro hlt
          rcases hsame (.index items'.length) _ (List.getElem?_eq_getElem hlt) with ⟨w, hw, _⟩
          have hnone : items'[items'.length]? = .none := List.getElem?_eq_none (Nat.le_refl _)
          cases hnone.symm.trans hw
        refine ⟨hlengths, ?_⟩
        intro i v w hv hw
        rcases hsame (.index i) v hv with ⟨w', hw', h⟩
        have hww' : w' = w := Option.some.inj (hw'.symm.trans hw)
        rw [← hww']
        exact h
    | _ =>
        cases hadmits'

/-!
# Equal values
-/

theorem Distinct.same_self {v : Value} (h : v.Distinct) : same v v = true := by
  induction h with
  | @intro v hkeys hmembers ih =>
      cases v with
      | none =>
          rfl
      | int n =>
          exact beq_self_eq_true n
      | string bytes =>
          exact beq_self_eq_true bytes
      | array items =>
          rw [same, sameItems_iff]
          refine ⟨rfl, ?_⟩
          intro i a b ha hb
          have hab : a = b := Option.some.inj (ha.symm.trans hb)
          subst hab
          exact ih (.index i) a ha
      | dict d =>
          apply same_dict_of_get? (hkeys d rfl) (hkeys d rfl)
          · intro key hkey
            exact hkey
          · intro key w hw
            exact ⟨w, hw, ih (.name key) w hw⟩

theorem kind_eq_of_same {v w : Value} (h : same v w = true) : v.kind = w.kind := by
  cases v <;> cases w <;> first | rfl | cases h

end Value
end Stencil
