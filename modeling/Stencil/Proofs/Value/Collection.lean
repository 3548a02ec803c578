import Stencil.Proofs.Value.Equality
import Stencil.Proofs.Value.Order

/-!
# Comparing the values of a collection

A collection of values is a choice of variables, with all that is stored below them.  When
no two of its dictionaries have the same address, the comparison is a total order of the
places in it; values at different places are equal in it exactly when they are
structurally equal and hold no dictionary.
-/

namespace Stencil

/-!
# Places of a collection
-/

namespace Place

def value? (vars : Dict Value) (p : Place) : Option Value :=
  (vars.get? p.root).bind (·.follow? p.steps)

theorem value?_element {vars : Dict Value} {p : Place} {items : List Value}
    (h : p.value? vars = some (.array items)) (i : Nat) :
    (p.element i).value? vars = items[i]? := by
  have hsteps : (p.element i).steps = p.steps ++ [.index i] := steps_element p i
  rw [value?, hsteps]
  have hroot : (p.element i).root = p.root := rfl
  rw [hroot]
  rw [value?] at h
  rcases Option.bind_eq_some_iff.mp h with ⟨v, hv, hfollow⟩
  rw [hv, Option.bind_some, Value.follow?_concat, hfollow]
  rfl

theorem value?_elements_tail {vars : Dict Value} {p : Place} {i : Nat} {a : Value}
    {as : List Value} (h : ∀ k, (p.element (i + k)).value? vars = (a :: as)[k]?) (k : Nat) :
    (p.element (i + 1 + k)).value? vars = as[k]? := by
  rw [← List.getElem?_cons_succ, ← h, Nat.add_assoc, Nat.add_comm 1 k]

theorem element_injective {p q : Place} {i : Nat} (h : p.element i = q.element i) : p = q := by
  rcases p with ⟨root, backwards⟩
  rcases q with ⟨root', backwards'⟩
  simpa [element] using h

end Place

/-!
# Places as addresses
-/

namespace Step

def rank : Step → Nat
  | .name _ => 0
  | .index _ => 1

def text : Step → Bytes
  | .name bytes => bytes
  | .index _ => []

def number : Step → Nat
  | .name _ => 0
  | .index i => i

instance : Ord Step where
  compare := compareLex (compareOn rank) (compareLex (compareOn text) (compareOn number))

instance : Std.TransOrd Step :=
  inferInstanceAs
    (Std.TransCmp
      (compareLex (compareOn rank) (compareLex (compareOn text) (compareOn number))))

instance : Std.LawfulEqOrd Step where
  eq_of_compare {step other} h := by
    have heq := Ordering.then_eq_eq.mp h
    have hrank : step.rank = other.rank := Std.LawfulEqOrd.eq_of_compare heq.left
    have hrest := Ordering.then_eq_eq.mp heq.right
    have htext : step.text = other.text := Std.LawfulEqOrd.eq_of_compare hrest.left
    have hnumber : step.number = other.number := Std.LawfulEqOrd.eq_of_compare hrest.right
    cases step with
    | name a =>
        cases other with
        | name b =>
            exact congrArg Step.name htext
        | index j =>
            cases hrank
    | index i =>
        cases other with
        | name b =>
            cases hrank
        | index j =>
            exact congrArg Step.index hnumber

end Step

namespace Place

theorem compareSteps_eq_compare (as bs : List Step) : compareSteps as bs = compare as bs := by
  induction as generalizing bs with
  | nil =>
      cases bs <;> rfl
  | cons step as ih =>
      cases bs with
      | nil =>
          cases step <;> rfl
      | cons other bs =>
          have hcons : compare (step :: as) (other :: bs) =
              (compare step other).then (compare as bs) := List.compareLex_cons_cons
          rw [hcons, ← ih]
          cases step with
          | name a =>
              cases other with
              | name b =>
                  rw [compareSteps]
                  congr 1
                  exact Ordering.then_eq.symm
              | index j =>
                  rfl
          | index i =>
              cases other with
              | name b =>
                  rfl
              | index j =>
                  rfl

theorem compare_eq_compareLex :
    (compare : Place → Place → Ordering) = compareLex (compareOn root) (compareOn steps) := by
  funext p q
  exact congrArg (Ordering.then _) (compareSteps_eq_compare p.steps q.steps)

instance : Std.TransOrd Place := by
  rw [Std.TransOrd, compare_eq_compareLex]
  infer_instance

instance : Std.LawfulEqOrd Place where
  eq_of_compare {p q} h := by
    rw [compare_eq_compareLex] at h
    have heq := Ordering.then_eq_eq.mp h
    have hroot : p.root = q.root := Std.LawfulEqOrd.eq_of_compare heq.left
    have hsteps : p.steps = q.steps := Std.LawfulEqOrd.eq_of_compare heq.right
    rcases p with ⟨root, backwards⟩
    rcases q with ⟨root', backwards'⟩
    rw [Place.mk.injEq]
    exact ⟨hroot, List.reverse_inj.mp hsteps⟩

end Place

/-- No two dictionaries of the collection have the same address. -/
def Addresses {ι : Type} (address : Place → ι) (vars : Dict Value) : Prop :=
  ∀ p q d e, p.value? vars = some (.dict d) → q.value? vars = some (.dict e) →
    address p = address q → p = q

theorem addresses_id (vars : Dict Value) : Addresses id vars := fun _ _ _ _ _ _ h => h

namespace Value

/-!
# Equality at different places
-/

mutual

def containsDict : Value → Bool
  | .dict _ => true
  | .array items => someContainsDict items
  | _ => false

def someContainsDict : List Value → Bool
  | [] => false
  | v :: rest => v.containsDict || someContainsDict rest

end

mutual

theorem distinct_of_not_containsDict : (a : Value) → a.containsDict = false → a.Distinct := by
  intro a h
  constructor
  · rintro d rfl
    cases h
  · intro step w hw
    cases a with
    | array items =>
        cases step with
        | name name =>
            cases hw
        | index i =>
            exact distinct_of_not_someContainsDict items h w (List.mem_of_getElem? hw)
    | dict d =>
        cases h
    | _ =>
        cases hw

theorem distinct_of_not_someContainsDict :
    (as : List Value) → someContainsDict as = false → ∀ a ∈ as, a.Distinct := by
  intro as h a ha
  cases as with
  | nil =>
      cases ha
  | cons first rest =>
      rw [someContainsDict, Bool.or_eq_false_iff] at h
      rw [List.mem_cons] at ha
      rcases ha with rfl | hrest
      · exact distinct_of_not_containsDict a h.left
      · exact distinct_of_not_someContainsDict rest h.right a hrest

end

variable {ι : Type} [Ord ι] {address : Place → ι} {vars : Dict Value}

mutual

theorem compareStored_eq_iff [Std.LawfulEqOrd ι] (haddress : Addresses address vars) :
    (p q : Place) → (a b : Value) → p ≠ q → p.value? vars = some a → q.value? vars = some b →
      (compareStored address p q a b = .eq ↔
        a.containsDict = false ∧ b.containsDict = false ∧ a.same b = true) := by
  intro p q a b hne ha hb
  by_cases hkind : b.kind = a.kind
  · cases a with
    | none =>
        cases b <;> cases hkind
        exact iff_of_true rfl ⟨rfl, rfl, rfl⟩
    | int n =>
        cases b <;> cases hkind
        rw [compareStored, Std.compare_eq_iff_eq]
        simp [containsDict, same, Int64.toInt_inj]
    | string bytes =>
        cases b <;> cases hkind
        rw [compareStored, Std.compare_eq_iff_eq]
        simp [containsDict, same]
    | array as =>
        cases b with
        | array bs =>
            rw [compareStored, Ordering.then_eq_eq, Std.compare_eq_iff_eq, containsDict,
              containsDict, same]
            have hitems := fun hlength =>
              compareItems_eq_iff haddress p q 0 as bs hne hlength
                (fun k => by rw [Place.value?_element ha, Nat.zero_add])
                (fun k => by rw [Place.value?_element hb, Nat.zero_add])
            constructor
            · rintro ⟨hlength, hcompare⟩
              exact (hitems hlength).mp hcompare
            · intro h
              have hlength := ((sameItems_iff as bs).mp h.right.right).left
              exact ⟨hlength, (hitems hlength).mpr h⟩
        | _ =>
            cases hkind
    | dict d =>
        cases b with
        | dict e =>
            apply iff_of_false
            · intro h
              exact hne (haddress p q d e ha hb (Std.LawfulEqOrd.eq_of_compare h))
            · rintro ⟨h, _⟩
              cases h
        | _ =>
            cases hkind
  · apply iff_of_false
    · intro h
      exact hkind (kind_eq_of_compareStored h).symm
    · rintro ⟨_, _, h⟩
      exact hkind (kind_eq_of_same h).symm

theorem compareItems_eq_iff [Std.LawfulEqOrd ι] (haddress : Addresses address vars) :
    (p q : Place) → (i : Nat) → (as bs : List Value) → p ≠ q → as.length = bs.length →
      (∀ k, (p.element (i + k)).value? vars = as[k]?) →
      (∀ k, (q.element (i + k)).value? vars = bs[k]?) →
      (compareItems address p q i as bs = .eq ↔
        someContainsDict as = false ∧ someContainsDict bs = false ∧
          sameItems as bs = true) := by
  intro p q i as bs hne hlength has hbs
  cases as with
  | nil =>
      cases bs with
      | nil =>
          exact iff_of_true rfl ⟨rfl, rfl, rfl⟩
      | cons b bs =>
          cases hlength
  | cons a as =>
      cases bs with
      | nil =>
          cases hlength
      | cons b bs =>
          have hhead := compareStored_eq_iff haddress (p.element i) (q.element i) a b
            (fun h => hne (Place.element_injective h)) (has 0) (hbs 0)
          have hrest :=
            compareItems_eq_iff haddress p q (i + 1) as bs hne (Nat.succ.inj hlength)
            (Place.value?_elements_tail has) (Place.value?_elements_tail hbs)
          rw [compareItems, Ordering.then_eq_eq, hhead, hrest, someContainsDict,
            someContainsDict,
            sameItems, Bool.or_eq_false_iff, Bool.or_eq_false_iff, Bool.and_eq_true]
          grind

end

/-!
# The same place
-/

theorem compareAt_eq_compareStored [Std.ReflOrd ι] (address : Place → ι) {p q : Place}
    {a b : Value} (ha : p.value? vars = some a) (hb : q.value? vars = some b) :
    compareAt address p q a b = compareStored address p q a b := by
  rw [compareAt]
  split
  · rename_i h
    subst h
    rw [ha] at hb
    cases hb
    rw [compareStored_self]
  · rfl

end Value

/-!
# The theorem
-/

/-- With different addresses for different dictionaries, the comparison of the values of a
collection is a total order: it turns round with its arguments and is transitive, also
through the shortcut for one place, which only saves the comparison of a value with
itself.  Values at different places are equal in it when they are structurally equal
without dictionaries in them; so a copy is equal to its original when that holds none. -/
theorem compareAt_total_order {ι : Type} [Ord ι] [Std.TransOrd ι] [Std.LawfulEqOrd ι]
    {vars : Dict Value} {address : Place → ι} (haddress : Addresses address vars) {p q : Place}
    {a b : Value} (ha : p.value? vars = some a) (hb : q.value? vars = some b) :
    Value.compareAt address q p b a = (Value.compareAt address p q a b).swap ∧
      (∀ r c, r.value? vars = some c →
        (Value.compareAt address p q a b).isLE = true →
        (Value.compareAt address q r b c).isLE = true →
        (Value.compareAt address p r a c).isLE = true) ∧
      (p = q → Value.compareAt address p q a b = Value.compareStored address p q a b) ∧
      (p ≠ q →
        (Value.compareAt address p q a b = .eq ↔
          a.containsDict = false ∧ b.containsDict = false ∧ a.same b = true)) ∧
      (p ≠ q → b = a → (Value.compareAt address p q a b = .eq ↔ a.containsDict = false)) := by
  have heq : p ≠ q →
      (Value.compareAt address p q a b = .eq ↔
        a.containsDict = false ∧ b.containsDict = false ∧ a.same b = true) := by
    intro hne
    rw [Value.compareAt_eq_compareStored address ha hb]
    exact Value.compareStored_eq_iff haddress p q a b hne ha hb
  refine ⟨?_, ?_, ?_, heq, ?_⟩
  · rw [Value.compareAt_eq_compareStored address ha hb,
      Value.compareAt_eq_compareStored address hb ha]
    exact Value.compareStored_swap address p q a b
  · intro r c hc
    rw [Value.compareAt_eq_compareStored address ha hb,
      Value.compareAt_eq_compareStored address hb hc,
      Value.compareAt_eq_compareStored address ha hc]
    exact (Value.composes_compareStored address p q r a b c).isLE
  · intro _
    exact Value.compareAt_eq_compareStored address ha hb
  · rintro hne rfl
    rw [heq hne]
    constructor
    · rintro ⟨hfree, _⟩
      exact hfree
    · intro hfree
      exact ⟨hfree, hfree, (Value.distinct_of_not_containsDict b hfree).same_self⟩

/-- The array `y` is a copy of `x`, with an empty dictionary in both. -/
theorem compareAt_copy_with_dict :
    (Place.reached (Bytes.ofText "x") []).value?
        ⟨[(Bytes.ofText "x", .array [.dict .empty]),
          (Bytes.ofText "y", .array [.dict .empty])]⟩ =
          some (.array [.dict .empty]) ∧
      (Place.reached (Bytes.ofText "y") []).value?
        ⟨[(Bytes.ofText "x", .array [.dict .empty]),
          (Bytes.ofText "y", .array [.dict .empty])]⟩ =
          some (.array [.dict .empty]) ∧
      Value.compareAt id (.reached (Bytes.ofText "x") []) (.reached (Bytes.ofText "y") [])
        (.array [.dict .empty]) (.array [.dict .empty]) ≠ .eq := by
  have hx : (Place.reached (Bytes.ofText "x") []).value?
      ⟨[(Bytes.ofText "x", .array [.dict .empty]),
        (Bytes.ofText "y", .array [.dict .empty])]⟩ =
        some (.array [.dict .empty]) := by
    rfl
  have hy : (Place.reached (Bytes.ofText "y") []).value?
      ⟨[(Bytes.ofText "x", .array [.dict .empty]),
        (Bytes.ofText "y", .array [.dict .empty])]⟩ =
        some (.array [.dict .empty]) := by
    rfl
  have hne : Place.reached (Bytes.ofText "x") [] ≠ Place.reached (Bytes.ofText "y") [] := by
    decide
  rcases compareAt_total_order (addresses_id _) hx hy with ⟨_, _, _, _, hcopy⟩
  refine ⟨hx, hy, ?_⟩
  intro h
  cases (hcopy hne rfl).mp h

end Stencil
