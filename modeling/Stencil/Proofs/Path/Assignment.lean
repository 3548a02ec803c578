import Stencil.Dict.Lemmas
import Stencil.Path.Assign
import Stencil.Proofs.Path.Lookup
import Stencil.Proofs.Value.Refusal

/-!
# Assigning is storing at steps

Where an assignment succeeds, its effect is a function of the steps that the
path spells: it opens the containers on the way, or creates them, and stores the
value behind the last step.
-/

namespace Stencil

/-!
# Storing at an index
-/

namespace Items

def put (items : List Value) (index : Nat) (v : Value) : List Value :=
  if index < items.length then items.set index v
  else items ++ List.replicate (index - items.length) Value.none ++ [v]

theorem set_filled (items : List Value) (index : Nat) (v : Value) :
    (items ++ List.replicate (index + 1 - items.length) Value.none).set index v =
      put items index v := by
  unfold put
  split
  · rename_i hindex
    rw [Nat.sub_eq_zero_of_le hindex, List.replicate_zero, List.append_nil]
  · rename_i hindex
    have hle := Nat.not_lt.mp hindex
    have hlength : (items ++ List.replicate (index - items.length) Value.none).length =
        index := by
      rw [List.length_append, List.length_replicate, Nat.add_sub_of_le hle]
    rw [Nat.succ_sub hle, List.replicate_succ', ← List.append_assoc,
      List.set_append_right _ _ (Nat.le_of_eq hlength), hlength, Nat.sub_self,
      List.set_cons_zero]

theorem set_eq_ok_iff (items changed : List Value) (index : Nat) (v : Value) :
    set items index v = (changed, .ok ()) ↔
      index < maxArrayLength ∧ put items index v = changed := by
  rcases Nat.lt_or_ge index maxArrayLength with hroom | hfull
  · simp [set_of_lt items hroom, set_filled, hroom]
  · simp [set_of_le items hfull, Nat.not_lt.mpr hfull]

@[simp]
theorem getElem?_put_self (items : List Value) (index : Nat) (v : Value) :
    (put items index v)[index]? = some v := by
  unfold put
  split
  · rename_i hindex
    simp [hindex]
  · rename_i hindex
    rw [List.getElem?_append_right (by simp; omega)]
    have hlength : index - (items ++ List.replicate (index - items.length) Value.none).length =
        0 := by
      simp
      omega
    rw [hlength]
    rfl

theorem getElem?_put_of_ne (items : List Value) {index other : Nat} (v : Value)
    (hne : other ≠ index) :
    (put items index v)[other]? =
      if other < items.length then items[other]?
      else if other < index then some .none else none := by
  unfold put
  by_cases hother : other < items.length
  · rw [if_pos hother]
    split
    · rw [List.getElem?_set_ne (Ne.symm hne)]
    · rw [List.append_assoc, List.getElem?_append_left hother]
  · rw [if_neg hother]
    split
    · rename_i hindex
      have hpast : ¬ other < index := by omega
      rw [if_neg hpast, List.getElem?_set_ne (Ne.symm hne), List.getElem?_eq_none (by omega)]
    · rename_i hindex
      rw [List.append_assoc, List.getElem?_append_right (by omega)]
      by_cases hpad : other < index
      · rw [if_pos hpad, List.getElem?_append_left (by simp; omega),
          List.getElem?_replicate_of_lt (by omega)]
      · rw [if_neg hpad, List.getElem?_eq_none (by simp; omega)]

theorem getElem?_put_or_padded (items : List Value) {index other : Nat} (v : Value)
    (hne : other ≠ index) :
    (put items index v)[other]? = items[other]? ∨
      (items[other]? = none ∧ (put items index v)[other]? = some .none ∧ other < index) := by
  rw [getElem?_put_of_ne items v hne]
  by_cases hlength : other < items.length
  · exact Or.inl (if_pos hlength)
  · rw [if_neg hlength, List.getElem?_eq_none (Nat.le_of_not_lt hlength)]
    by_cases hpad : other < index
    · exact Or.inr ⟨rfl, if_pos hpad, hpad⟩
    · exact Or.inl (if_neg hpad)

end Items

/-!
# Storing at a list of steps
-/

namespace Value

/-- The content of a slot, empty or not, after `v` is stored at `steps` below it; none
when a step meets a value that is no container of its kind. -/
def graft? (v : Value) : Option Value → List Step → Option Value
  | _, [] => some v
  | slot, .name name :: rest =>
    match slot.getD (.dict .empty) with
    | .dict d =>
      if rest = [] then some (.dict (d.replace name v))
      else (graft? v (d.get? name) rest).map fun w => .dict (d.put name w)
    | _ => .none
  | slot, .index i :: rest =>
    match slot.getD (.array []) with
    | .array items => (graft? v items[i]? rest).map fun w => .array (Items.put items i w)
    | _ => .none

@[simp]
theorem graft?_nil (v : Value) (slot : Option Value) : graft? v slot [] = some v := by
  simp [graft?]

theorem graft?_name_eq_some {v w : Value} {slot : Option Value} {name : Bytes}
    {rest : List Step} (h : graft? v slot (.name name :: rest) = some w) :
    ∃ d x, slot.getD (.dict .empty) = .dict d ∧ graft? v (d.get? name) rest = some x ∧
      (w = .dict (if rest = [] then d.replace name v else d.put name x)) := by
  rw [graft?] at h
  cases hslot : slot.getD (.dict .empty) with
  | dict d =>
      rw [hslot] at h
      by_cases hrest : rest = []
      · simp only [hrest, if_true, Option.some.injEq] at h
        exact ⟨d, v, rfl, by simp [hrest], by simp [hrest, h]⟩
      · simp only [hrest, if_false, Option.map_eq_some_iff] at h
        rcases h with ⟨x, hx, hw⟩
        exact ⟨d, x, rfl, hx, by simp [hrest, hw]⟩
  | _ =>
      rw [hslot] at h
      cases h

theorem graft?_index_eq_some {v w : Value} {slot : Option Value} {i : Nat} {rest : List Step}
    (h : graft? v slot (.index i :: rest) = some w) :
    ∃ items x, slot.getD (.array []) = .array items ∧ graft? v items[i]? rest = some x ∧
      w = .array (Items.put items i x) := by
  rw [graft?] at h
  cases hslot : slot.getD (.array []) with
  | array items =>
      rw [hslot] at h
      simp only [Option.map_eq_some_iff] at h
      rcases h with ⟨x, hx, hw⟩
      exact ⟨items, x, rfl, hx, hw.symm⟩
  | _ =>
      rw [hslot] at h
      cases h

end Value

/-!
# Storing along a path
-/

namespace Path

def Storable : Step → Prop
  | .name _ => True
  | .index i => i < maxArrayLength

theorem Continues.storable {rest : Bytes} {steps : List Step} (h : Continues rest steps) :
    ∀ step ∈ steps, Storable step := by
  induction h with
  | done =>
      simp
  | name _ _ ih =>
      simpa [Storable] using ih
  | index htoken _ ih =>
      simpa [Storable, htoken.bounded] using ih

theorem Spells.storable {path : Path} {steps : List Step} (h : Spells path steps) :
    ∀ step ∈ steps, Storable step := by
  cases h with
  | start _ hrest =>
      simpa [Storable] using hrest.storable

theorem store_ok {path : Path} {v : Value} {label : Bytes} {slot : Option Value}
    {segments : List Segment} {ending : Ending}
    (h : (store path v label slot segments ending).2 = .ok ()) :
    ending = .complete ∧
      ∃ w, (store path v label slot segments ending).1 = some w ∧
        Value.graft? v slot (segments.map Segment.step) = some w := by
  induction segments generalizing label slot with
  | nil =>
      cases ending with
      | complete =>
          exact ⟨rfl, v, rfl, Value.graft?_nil v slot⟩
      | stray offset =>
          cases h
      | badName start fault =>
          rw [store] at h
          split at h <;> cases h
      | badIndex start offset fault =>
          cases h
  | cons segment rest ih =>
      cases segment with
      | name start name =>
          rw [List.map_cons, Segment.step, Value.graft?]
          cases hslot : slot.getD (.dict .empty) with
          | dict d =>
              by_cases hlast : rest = [] ∧ ending = .complete
              · rcases hlast with ⟨rfl, rfl⟩
                simp [store, hslot]
              · have hrec := @ih name (d.get? name)
                rw [store] at h ⊢
                simp only [hslot, if_neg hlast] at h ⊢
                rcases hstored : store path v name (d.get? name) rest ending with
                  ⟨_ | w, outcome⟩
                · rw [hstored] at h hrec
                  rcases hrec h with ⟨_, x, hx, _⟩
                  cases hx
                · rw [hstored] at h hrec
                  rcases hrec h with ⟨hending, x, hx, hgraft⟩
                  cases hx
                  have hrest : rest.map Segment.step ≠ [] := by
                    intro hnil
                    exact hlast ⟨List.map_eq_nil_iff.mp hnil, hending⟩
                  refine ⟨hending, .dict (d.put name w), rfl, ?_⟩
                  simp only [if_neg hrest, hgraft, Option.map_some]
          | _ =>
              simp only [store, hslot] at h
              cases h
      | index start stop i =>
          rw [List.map_cons, Segment.step, Value.graft?]
          cases hslot : slot.getD (.array []) with
          | array items =>
              have hrec := @ih label items[i]?
              rw [store] at h ⊢
              simp only [hslot] at h ⊢
              rcases hstored : store path v label items[i]? rest ending with ⟨_ | w, outcome⟩
              · rw [hstored] at h hrec
                rcases hrec h with ⟨_, x, hx, _⟩
                cases hx
              · rw [hstored] at h hrec
                rcases hset : Items.set items i w with ⟨changed, refused | _⟩
                · simp only [hset] at h
                  cases h
                · simp only [hset] at h ⊢
                  rcases hrec h with ⟨hending, x, hx, hgraft⟩
                  cases hx
                  have hput := ((Items.set_eq_ok_iff items changed i w).mp hset).right
                  refine ⟨hending, .array changed, rfl, ?_⟩
                  simp only [hgraft, Option.map_some, hput]
          | _ =>
              simp only [store, hslot] at h
              cases h

theorem store_of_graft? {path : Path} {v w : Value} {label : Bytes} {slot : Option Value}
    {segments : List Segment}
    (hstorable : ∀ step ∈ segments.map Segment.step, Storable step)
    (h : Value.graft? v slot (segments.map Segment.step) = some w) :
    store path v label slot segments .complete = (some w, .ok ()) := by
  induction segments generalizing label slot w with
  | nil =>
      simpa [store] using h
  | cons segment rest ih =>
      have htail : ∀ step ∈ rest.map Segment.step, Storable step := by
        intro step hstep
        exact hstorable step (by simp [hstep])
      cases segment with
      | name start name =>
          rcases Value.graft?_name_eq_some h with ⟨d, x, hslot, hx, rfl⟩
          rw [store]
          simp only [hslot]
          by_cases hrest : rest = []
          · simp [hrest]
          · have hmap : rest.map Segment.step ≠ [] := by simpa using hrest
            rw [if_neg (by simp [hrest]), ih htail hx, if_neg hmap]
      | index start stop i =>
          rcases Value.graft?_index_eq_some h with ⟨items, x, hslot, hx, rfl⟩
          have hi : i < maxArrayLength := hstorable (.index i) (by simp [Segment.step])
          have hset := (Items.set_eq_ok_iff items _ i x).mpr ⟨hi, rfl⟩
          rw [store]
          simp only [hslot, ih htail hx, hset]

end Path

/-- A path starts with a name, so that a dictionary stays a dictionary. -/
theorem Path.Spells.exists_dict {path : Path} {steps : List Step} (h : Path.Spells path steps)
    {v w : Value} {slot : Option Value} (hgraft : Value.graft? v slot steps = some w) :
    ∃ d, w = .dict d := by
  cases h with
  | start _ _ =>
      rcases Value.graft?_name_eq_some hgraft with ⟨d, x, _, _, hw⟩
      exact ⟨_, hw⟩

/-- An assignment succeeds exactly on the paths of the grammar along whose steps the value
can be stored, and then it stores it there. -/
theorem assign_eq_ok_iff (ns ns' : Dict Value) (path : Path) (v : Value) :
    assign ns path v = (ns', .ok ()) ↔
      ∃ steps, Path.Spells path steps ∧
        Value.graft? v (some (.dict ns)) steps = some (.dict ns') := by
  constructor
  · intro h
    have hok : (path.store v [] (some (.dict ns)) path.read.segments path.read.ending).2 =
        .ok () := by
      cases houtcome :
          (path.store v [] (some (.dict ns)) path.read.segments path.read.ending).2 with
      | ok done =>
          rfl
      | error e =>
          have hsecond := congrArg Prod.snd h
          simp only [assign, houtcome] at hsecond
          split at hsecond <;> cases hsecond
    rcases Path.store_ok hok with ⟨hending, w, hw, hgraft⟩
    have hspells := (Path.spells_iff_read path path.read.steps).mpr ⟨hending, rfl⟩
    refine ⟨path.read.steps, hspells, ?_⟩
    rw [Path.Reading.steps, hgraft]
    rcases hspells.exists_dict hgraft with ⟨d, rfl⟩
    have hfirst := congrArg Prod.fst h
    simp only [assign, hw] at hfirst
    rw [hfirst]
  · rintro ⟨steps, hspells, hgraft⟩
    rcases (Path.spells_iff_read path steps).mp hspells with ⟨hending, rfl⟩
    have hstore : path.store v [] (some (.dict ns)) path.read.segments .complete =
        (some (.dict ns'), .ok ()) :=
      Path.store_of_graft? hspells.storable hgraft
    simp only [assign, hending]
    rw [hstore]
    rfl

theorem Path.Spells.assign_eq_ok_iff {path : Path} {steps : List Step}
    (h : Path.Spells path steps) (ns ns' : Dict Value) (v : Value) :
    assign ns path v = (ns', .ok ()) ↔
      Value.graft? v (some (.dict ns)) steps = some (.dict ns') := by
  rw [Stencil.assign_eq_ok_iff]
  constructor
  · rintro ⟨others, hothers, hgraft⟩
    rw [h.unique hothers]
    exact hgraft
  · intro hgraft
    exact ⟨steps, h, hgraft⟩

end Stencil
