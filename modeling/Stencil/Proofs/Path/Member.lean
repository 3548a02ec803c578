import Stencil.Proofs.Path.Container
import Stencil.Proofs.Value.Equality

/-!
# Members of containers

Storing at a step replaces one member and leaves the others, up to padding.  It keeps
the keys of dictionaries distinct, and two members can be stored in either order, up
to the order of entries.
-/

namespace Stencil

/-!
# Storing at two indices
-/

theorem Items.put_comm (items : List Value) {i j : Nat} (hne : i ≠ j) (v w : Value) :
    put (put items j w) i v = put (put items i v) j w := by
  apply List.ext_getElem?
  intro other
  by_cases hi : other = i
  · subst hi
    rw [getElem?_put_self, getElem?_put_of_ne _ w hne, getElem?_put_self, length_put, if_pos]
    omega
  · by_cases hj : other = j
    · subst hj
      rw [getElem?_put_self, getElem?_put_of_ne _ v hi, getElem?_put_self, length_put, if_pos]
      omega
    · rw [getElem?_put_of_ne _ v hi, getElem?_put_of_ne _ w hj, getElem?_put_of_ne _ w hj,
        getElem?_put_of_ne _ v hi, length_put, length_put]
      -- Both orders fill up the places below the greater index.
      grind

namespace Value

/-!
# Storing a member on the way or at its end
-/

def install : Value → Step → List Step → Value → Value
  | .dict d, .name name, rest, w =>
    .dict (if rest = [] then d.replace name w else d.put name w)
  | c, step, _, w => c.place step w

theorem install_of_ne_nil (c : Value) (step : Step) {rest : List Step} (h : rest ≠ [])
    (w : Value) :
    c.install step rest w = c.place step w := by
  unfold install
  split
  · rw [if_neg h]
    rfl
  · rfl

theorem install_index (c : Value) (i : Nat) (rest : List Step) (w : Value) :
    c.install (.index i) rest w = c.place (.index i) w := by
  cases c <;> rfl

theorem graft?_cons_eq_some_iff {v w : Value} {slot : Option Value} {step : Step}
    {rest : List Step} {c : Value} (hslot : slot.getD step.container = c) :
    graft? v slot (step :: rest) = some w ↔
      c.Admits step ∧ ∃ x, graft? v (c.member? step) rest = some x ∧
        c.install step rest x = w := by
  cases step with
  | name name =>
      have hdict : slot.getD (.dict .empty) = c := hslot
      rw [graft?, hdict]
      cases c with
      | dict d =>
          by_cases hrest : rest = []
          · simp [hrest, Admits, install]
          · simp [hrest, Admits, install, member?]
      | _ =>
          simp [Admits]
  | index i =>
      have harray : slot.getD (.array []) = c := hslot
      rw [graft?, harray]
      cases c with
      | array items =>
          simp [Admits, install, place, member?]
      | _ =>
          simp [Admits]

theorem Admits.member?_install {c : Value} {step : Step} (h : c.Admits step) (rest : List Step)
    (w : Value) : (c.install step rest w).member? step = some w := by
  rcases h.exists_container with ⟨d, name, rfl, rfl⟩ | ⟨items, i, rfl, rfl⟩
  · rw [install, member?]
    split
    · exact Dict.get?_replace_self d name w
    · exact (Dict.get?_put d name name w).trans (if_pos rfl)
  · exact h.member?_place w

theorem Admits.install_install {c : Value} {step : Step} (h : c.Admits step) (rest : List Step)
    (earlier w : Value) :
    (c.install step rest earlier).install step rest w = c.install step rest w := by
  rcases h.exists_container with ⟨d, name, rfl, rfl⟩ | ⟨items, i, rfl, rfl⟩
  · rw [install, install, install]
    split
    · rw [Dict.replace_replace]
    · rw [Dict.put_put]
  · exact place_place (array items) (.index i) earlier w

theorem member?_install_of_ne (c : Value) {step other : Step} (hne : other ≠ step)
    (rest : List Step) (w : Value) :
    (c.install step rest w).member? other = c.member? other ∨
      (c.member? other = .none ∧ (c.install step rest w).member? other = some .none ∧
        ∃ i j, i < j ∧ other = .index i ∧ step = .index j) := by
  cases c with
  | dict d =>
      cases step with
      | name name =>
          left
          rw [install]
          split
          · exact member?_replace_of_ne d w hne
          · exact member?_put_of_ne d w hne
      | index i =>
          exact Or.inl rfl
  | array items =>
      cases step with
      | name name =>
          exact Or.inl rfl
      | index j =>
          cases other with
          | name key =>
              exact Or.inl rfl
          | index i =>
              have hindex : i ≠ j := by simpa using hne
              rcases Items.getElem?_put_or_padded items w hindex with
                hsame | ⟨hmissing, hnone, hlt⟩
              · exact Or.inl hsame
              · exact Or.inr ⟨hmissing, hnone, i, j, hlt, rfl, rfl⟩
  | _ =>
      exact Or.inl rfl

theorem admits_install_iff (c : Value) (step : Step) (rest : List Step) (w : Value)
    (other : Step) :
    (c.install step rest w).Admits other ↔ c.Admits other := by
  cases c <;> cases step <;> cases other <;> exact Iff.rfl

theorem admits_of_member? {c w : Value} {step : Step} (h : c.member? step = some w) :
    c.Admits step := by
  cases c with
  | dict d =>
      cases step with
      | name name =>
          trivial
      | index i =>
          cases h
  | array items =>
      cases step with
      | name name =>
          cases h
      | index i =>
          trivial
  | _ =>
      cases h

theorem getD_container {slot : Option Value} {step other : Step}
    (h : (slot.getD step.container).Admits other) :
    slot.getD other.container = slot.getD step.container := by
  cases slot with
  | some w =>
      rfl
  | none =>
      cases step with
      | name name =>
          cases other with
          | name key =>
              rfl
          | index i =>
              cases h
      | index i =>
          cases other with
          | name key =>
              cases h
          | index j =>
              rfl

/-!
# Keys stay distinct
-/

theorem Distinct.install {c w : Value} {step : Step} (h : c.Distinct) (hadmits : c.Admits step)
    (rest : List Step) (hw : w.Distinct) : (c.install step rest w).Distinct := by
  constructor
  · intro d hd
    rcases hadmits.exists_container with ⟨d', name, rfl, rfl⟩ | ⟨items, i, rfl, rfl⟩
    · rw [Value.install, Value.dict.injEq] at hd
      rw [← hd]
      split
      · exact h.keys.replace name w
      · exact h.keys.put name w
    · cases hd
  · intro other x hx
    by_cases hother : other = step
    · subst hother
      rw [hadmits.member?_install rest w] at hx
      cases hx
      exact hw
    · rcases member?_install_of_ne c hother rest w with hsame | ⟨_, hnone, _⟩
      · rw [hsame] at hx
        exact h.member hx
      · rw [hnone] at hx
        cases hx
        exact Distinct.none

theorem Distinct.getD_container {slot : Option Value} (h : ∀ c, slot = some c → c.Distinct)
    (step : Step) : (slot.getD step.container).Distinct := by
  cases slot with
  | none =>
      exact Distinct.container step
  | some c =>
      exact h c rfl

theorem Distinct.graft? {v w : Value} {slot : Option Value} {steps : List Step}
    (hslot : ∀ c, slot = some c → c.Distinct) (hv : v.Distinct)
    (h : graft? v slot steps = some w) : w.Distinct := by
  induction steps generalizing slot w with
  | nil =>
      rw [graft?_nil] at h
      cases h
      exact hv
  | cons step rest ih =>
      rcases (graft?_cons_eq_some_iff rfl).mp h with ⟨hadmits, x, hx, rfl⟩
      have hc := Distinct.getD_container hslot step
      exact hc.install hadmits rest (ih (fun _ => hc.member) hx)

theorem Distinct.graft?_some {c v w : Value} {steps : List Step} (hc : c.Distinct)
    (hv : v.Distinct) (h : Value.graft? v (some c) steps = some w) : w.Distinct := by
  apply Distinct.graft? _ hv h
  rintro _ ⟨rfl⟩
  exact hc

theorem Distinct.place_self {c w : Value} {step : Step} (h : c.Distinct)
    (hmember : c.member? step = some w) : c.place step w = c := by
  rcases (admits_of_member? hmember).exists_container with ⟨d, name, rfl, rfl⟩
    | ⟨items, i, rfl, rfl⟩
  · exact congrArg Value.dict (h.keys.put_self hmember)
  · exact congrArg Value.array (Items.put_self hmember)

/-!
# Members stored in either order
-/

theorem member?_install_name (c : Value) {name : Bytes} {other : Step}
    (hne : other ≠ .name name) (rest : List Step) (w : Value) :
    (c.install (.name name) rest w).member? other = c.member? other := by
  rcases member?_install_of_ne c hne rest w with hsame | ⟨_, _, _, _, _, _, hstep⟩
  · exact hsame
  · cases hstep

theorem member?_install_comm {c : Value} {step other : Step} (hstep : c.Admits step)
    (hother : c.Admits other) (hne : other ≠ step) (rest more : List Step) (x y : Value)
    (selected : Step) :
    ((c.install other more y).install step rest x).member? selected =
      ((c.install step rest x).install other more y).member? selected := by
  rcases hstep.exists_container with ⟨d, a, rfl, rfl⟩ | ⟨items, i, rfl, rfl⟩
  · cases other with
    | index j =>
        cases hother
    | name b =>
        have hstep' := (admits_install_iff (.dict d) (.name b) more y (.name a)).mpr hstep
        have hother' := (admits_install_iff (.dict d) (.name a) rest x (.name b)).mpr hother
        by_cases ha : selected = .name a
        · rw [ha, hstep'.member?_install, member?_install_name _ hne.symm,
            hstep.member?_install]
        · rw [member?_install_name _ ha]
          by_cases hb : selected = .name b
          · rw [hb, hother'.member?_install, hother.member?_install]
          · rw [member?_install_name _ hb, member?_install_name _ hb,
              member?_install_name _ ha]
  · cases other with
    | name b =>
        cases hother
    | index j =>
        have hindex : i ≠ j := by
          rintro rfl
          exact hne rfl
        exact congrArg (fun items => (array items).member? selected)
          (Items.put_comm items hindex x y)

theorem member?_place_congr (c : Value) {step other : Step} (hne : other ≠ step)
    (x y : Value) :
    (c.place step x).member? other = (c.place step y).member? other := by
  by_cases h : c.Admits step
  · rcases h.exists_container with ⟨d, name, rfl, rfl⟩ | ⟨items, i, rfl, rfl⟩
    · exact (member?_put_of_ne d x hne).trans (member?_put_of_ne d y hne).symm
    · cases other with
      | name key =>
          rfl
      | index j =>
          have hindex : j ≠ i := by simpa using hne
          exact (Items.getElem?_put_of_ne items x hindex).trans
            (Items.getElem?_put_of_ne items y hindex).symm
  · rw [place_of_not_admits h, place_of_not_admits h]

theorem Distinct.place {c w : Value} {step : Step} (h : c.Distinct) (hadmits : c.Admits step)
    (hw : w.Distinct) : (c.place step w).Distinct := by
  have hinstall := h.install hadmits [step] hw
  rw [install_of_ne_nil c step (List.cons_ne_nil step [])] at hinstall
  exact hinstall

theorem same_place {c x y : Value} {step : Step} (hc : c.Distinct) (hadmits : c.Admits step)
    (hx : x.Distinct) (hy : y.Distinct) (h : same x y = true) :
    same (c.place step x) (c.place step y) = true := by
  have hplace := hc.place hadmits hx
  apply same_of_member? hplace (hc.place hadmits hy) (hadmits.place x) (hadmits.place y)
  · intro other hnone
    by_cases hother : other = step
    · rw [hother, hadmits.member?_place] at hnone
      cases hnone
    · rw [member?_place_congr c hother y x]
      exact hnone
  · intro other z hz
    by_cases hother : other = step
    · rw [hother, hadmits.member?_place] at hz ⊢
      cases hz
      exact ⟨y, rfl, h⟩
    · rw [member?_place_congr c hother y x]
      exact ⟨z, hz, (hplace.member hz).same_self⟩

theorem same_install_comm {c x y : Value} {step other : Step} (hc : c.Distinct)
    (hstep : c.Admits step) (hother : c.Admits other) (hne : other ≠ step)
    (rest more : List Step) (hx : x.Distinct) (hy : y.Distinct) :
    same ((c.install other more y).install step rest x)
      ((c.install step rest x).install other more y) = true := by
  have hstep' := (admits_install_iff c other more y step).mpr hstep
  have hother' := (admits_install_iff c step rest x other).mpr hother
  have hleft := (hc.install hother more hy).install hstep' rest hx
  have hright := (hc.install hstep rest hx).install hother' more hy
  have hmembers := member?_install_comm hstep hother hne rest more x y
  have hadmits := (admits_install_iff _ step rest x step).mpr hstep'
  have hadmits' := (admits_install_iff _ other more y step).mpr
    ((admits_install_iff c step rest x step).mpr hstep)
  apply same_of_member? hleft hright hadmits hadmits'
  · intro selected hnone
    rw [← hmembers]
    exact hnone
  · intro selected z hz
    rw [← hmembers]
    exact ⟨z, hz, (hleft.member hz).same_self⟩

end Value
end Stencil
