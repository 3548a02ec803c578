import Stencil.Document.Conversion
import Stencil.Path.Assign
import Stencil.Proofs.Except
import Stencil.Proofs.Value.WellFormed

/-!
# Constructible values

Values come out of documents, or begin empty or as a scalar and change by
operations on what has been constructed before.  All of them are well-formed.  That
goes for what a failed assignment leaves as well, which is why storing is looked at
together with how it ends.
-/

namespace Stencil

/-!
# Assignments
-/

theorem Value.WellFormed.getD {slot : Option Value} (hslot : ∀ u, slot = some u → u.WellFormed)
    {fresh : Value} (hfresh : fresh.WellFormed) : (slot.getD fresh).WellFormed := by
  cases slot with
  | none =>
      exact hfresh
  | some u =>
      exact hslot u rfl

namespace Path

theorem wellFormed_store {path : Path} {v w : Value} (hv : v.WellFormed) {label : Bytes}
    {slot : Option Value} {segments : List Segment} {ending : Ending}
    (hslot : ∀ u, slot = some u → u.WellFormed)
    (h : (store path v label slot segments ending).1 = some w) : w.WellFormed := by
  -- The slot is generalized with the segments: below a missing member storing begins
  -- without a value, and what it leaves there is put into a container that was
  -- well-formed before.
  induction segments generalizing label slot w with
  | nil =>
      cases ending with
      | complete =>
          cases h
          exact hv
      | stray offset =>
          exact hslot w h
      | badName start fault =>
          have hcontent := Value.WellFormed.getD hslot Value.WellFormed.emptyDict
          rw [store] at h
          split at h
          · rename_i d hd
            cases h
            rw [hd] at hcontent
            exact hcontent
          · cases h
            exact hcontent
      | badIndex start offset fault =>
          cases h
          exact Value.WellFormed.getD hslot Value.WellFormed.emptyArray
  | cons segment rest ih =>
      cases segment with
      | name start name =>
          have hcontent := Value.WellFormed.getD hslot Value.WellFormed.emptyDict
          rw [store] at h
          split at h
          · rename_i d hd
            rw [hd] at hcontent
            split at h
            · cases h
              exact hcontent.replace name hv
            · rcases hstored : store path v name (d.get? name) rest ending with
                ⟨_ | x, outcome⟩
              · rw [hstored] at h
                cases h
                exact hcontent
              · have hx := @ih x name (d.get? name) (fun _ => hcontent.member (.name name))
                  (congrArg Prod.fst hstored)
                rw [hstored] at h
                cases h
                exact hcontent.put name hx
          · cases h
            exact hcontent
      | index start stop i =>
          have hcontent := Value.WellFormed.getD hslot Value.WellFormed.emptyArray
          rw [store] at h
          split at h
          · rename_i items hitems
            rw [hitems] at hcontent
            rcases hstored : store path v label items[i]? rest ending with ⟨_ | x, outcome⟩
            · rw [hstored] at h
              cases h
              exact hcontent
            · have hx := @ih x label items[i]? (fun _ => hcontent.member (.index i))
                (congrArg Prod.fst hstored)
              rw [hstored] at h
              dsimp only at h
              have hset := hcontent.set hx i
              split at h
              · rename_i changed hchanged
                rw [hchanged] at hset
                cases h
                exact hset
              · rename_i left _ hleft
                rw [hleft] at hset
                cases h
                exact hset
          · cases h
            exact hcontent

end Path

theorem wellFormed_assign {ns : Dict Value} {v : Value} (hns : (Value.dict ns).WellFormed)
    (hv : v.WellFormed) (path : Path) : (Value.dict (assign ns path v).1).WellFormed := by
  rw [assign]
  split
  · rename_i changed hchanged
    apply Path.wellFormed_store hv _ hchanged
    intro u hu
    cases hu
    exact hns
  · exact hns

/-!
# Documents
-/

namespace Document

mutual

theorem wellFormed_toValue :
    (j : Document) → ∀ {v : Value}, j.toValue = .ok v → v.WellFormed := by
  intro j v h
  cases j with
  | null =>
      cases h
      exact Value.WellFormed.none
  | bool b =>
      cases h
      exact Value.WellFormed.int _
  | number n =>
      rw [toValue, numberToValue] at h
      split at h
      · cases h
        exact Value.WellFormed.int _
      · cases h
  | string bytes =>
      cases h
      exact Value.WellFormed.string bytes
  | array items =>
      rw [toValue] at h
      cases hitems : toItems 0 items with
      | error e =>
          rw [hitems] at h
          cases h
      | ok vs =>
          rw [hitems] at h
          cases h
          have hvs := wellFormed_toItems items 0 (Nat.zero_le _) hitems
          rw [Nat.zero_add] at hvs
          exact Value.WellFormed.array hvs.left hvs.right
  | object members =>
      rcases members with ⟨members⟩
      rw [toValue] at h
      cases hmembers : toDict .empty members with
      | error e =>
          rw [hmembers] at h
          cases h
      | ok d =>
          rw [hmembers] at h
          cases h
          exact wellFormed_toDict members .empty Value.WellFormed.emptyDict hmembers

/-- The elements before the first of them count towards the length as well. -/
theorem wellFormed_toItems : (items : List Document) → (index : Nat) → index ≤ maxArrayLength →
    ∀ {vs : List Value}, toItems index items = .ok vs →
      index + vs.length ≤ maxArrayLength ∧ ∀ v ∈ vs, v.WellFormed := by
  intro items index hindex vs h
  cases items with
  | nil =>
      cases h
      exact ⟨hindex, nofun⟩
  | cons item rest =>
      rw [toItems, bind_eq_ok_iff] at h
      rcases h with ⟨v, hv, h⟩
      split at h
      · cases h
      · rename_i hbound
        rcases (bind_eq_ok_iff _ _ _).mp h with ⟨rest', hrest, h⟩
        cases h
        have ih := wellFormed_toItems rest (index + 1) (Nat.not_lt.mp hbound) hrest
        constructor
        · rw [List.length_cons]
          omega
        · rw [List.forall_mem_cons]
          exact ⟨wellFormed_toValue item hv, ih.right⟩

theorem wellFormed_toDict : (members : List (Bytes × Document)) → (d : Dict Value) →
    (Value.dict d).WellFormed → ∀ {d' : Dict Value}, toDict d members = .ok d' →
      (Value.dict d').WellFormed := by
  intro members d hd d' h
  cases members with
  | nil =>
      cases h
      exact hd
  | cons member rest =>
      rcases member with ⟨key, j⟩
      rw [toDict, bind_eq_ok_iff] at h
      rcases h with ⟨v, hv, h⟩
      exact wellFormed_toDict rest (d.replace key v)
        (hd.replace key (wellFormed_toValue j hv)) h

end

end Document

/-!
# Constructions
-/

/-- The values that operations lead to, whichever they are, in whatever order, and whether
they succeed or fail.  An array or a dictionary whose members were changed in place is one
with the changed member stored over the old one. -/
inductive Constructible : Value → Prop where
  | none : Constructible .none
  | int (n : Int64) : Constructible (.int n)
  | string (bytes : Bytes) : Constructible (.string bytes)
  | emptyArray : Constructible (.array [])
  | emptyDict : Constructible (.dict .empty)
  | document {j : Document} {v : Value} : j.toValue = .ok v → Constructible v
  | copy {v w : Value} {steps : List Step} :
      Constructible v → v.follow? steps = some w → Constructible w
  | append {items : List Value} {v : Value} :
      Constructible (.array items) → Constructible v →
      Constructible (.array (Items.append items v).1)
  | prepend {items : List Value} {v : Value} :
      Constructible (.array items) → Constructible v →
      Constructible (.array (Items.prepend items v).1)
  | set {items : List Value} {v : Value} (index : Nat) :
      Constructible (.array items) → Constructible v →
      Constructible (.array (Items.set items index v).1)
  | overwriteItem {items : List Value} {v : Value} (index : Nat) :
      Constructible (.array items) → Constructible v →
      Constructible (.array (items.set index v))
  | pop {items rest : List Value} {v : Value} :
      Constructible (.array items) → Items.pop items = some (v, rest) →
      Constructible (.array rest)
  | popped {items rest : List Value} {v : Value} :
      Constructible (.array items) → Items.pop items = some (v, rest) → Constructible v
  | pull {items rest : List Value} {v : Value} :
      Constructible (.array items) → Items.pull items = some (v, rest) →
      Constructible (.array rest)
  | pulled {items rest : List Value} {v : Value} :
      Constructible (.array items) → Items.pull items = some (v, rest) → Constructible v
  | insert {d : Dict Value} {v : Value} (key : Bytes) :
      Constructible (.dict d) → Constructible v → Constructible (.dict (d.insert key v).1)
  | replace {d : Dict Value} {v : Value} (key : Bytes) :
      Constructible (.dict d) → Constructible v → Constructible (.dict (d.replace key v))
  | overwriteEntry {d : Dict Value} {v : Value} (key : Bytes) :
      Constructible (.dict d) → Constructible v → Constructible (.dict (d.update key v))
  | remove {d : Dict Value} (key : Bytes) :
      Constructible (.dict d) → Constructible (.dict (d.remove key))
  | removed {d : Dict Value} {key : Bytes} {v : Value} :
      Constructible (.dict d) → d.get? key = some v → Constructible v
  | delete {d : Dict Value} (key : Bytes) :
      Constructible (.dict d) → Constructible (.dict (d.delete key).1)
  | ofList {entries : List (Bytes × Value)} :
      (∀ e ∈ entries, Constructible e.2) → Constructible (.dict (.ofList entries))
  | assign {ns : Dict Value} {v : Value} (path : Path) :
      Constructible (.dict ns) → Constructible v → Constructible (.dict (assign ns path v).1)

/-!
# The theorem
-/

/-- However a value was constructed, at every depth its dictionaries have distinct keys
and its arrays are no longer than arrays may be.  Assignments take part in this whether
they succeed or not. -/
theorem wellFormed_of_constructible {v : Value} (h : Constructible v) : v.WellFormed := by
  induction h with
  | none =>
      exact Value.WellFormed.none
  | int n =>
      exact Value.WellFormed.int n
  | string bytes =>
      exact Value.WellFormed.string bytes
  | emptyArray =>
      exact Value.WellFormed.emptyArray
  | emptyDict =>
      exact Value.WellFormed.emptyDict
  | document hvalue =>
      exact Document.wellFormed_toValue _ hvalue
  | copy _ hfollow ih =>
      exact ih.follow hfollow
  | append _ _ ihitems ihv =>
      exact ihitems.append ihv
  | prepend _ _ ihitems ihv =>
      exact ihitems.prepend ihv
  | set index _ _ ihitems ihv =>
      exact ihitems.set ihv index
  | overwriteItem index _ _ ihitems ihv =>
      exact ihitems.overwrite ihv index
  | pop _ hpop ih =>
      exact (ih.pop hpop).right
  | popped _ hpop ih =>
      exact (ih.pop hpop).left
  | pull _ hpull ih =>
      exact (ih.pull hpull).right
  | pulled _ hpull ih =>
      exact (ih.pull hpull).left
  | insert key _ _ ihd ihv =>
      exact ihd.insert key ihv
  | replace key _ _ ihd ihv =>
      exact ihd.replace key ihv
  | overwriteEntry key _ _ ihd ihv =>
      exact ihd.update key ihv
  | remove key _ ih =>
      exact ih.remove key
  | removed _ hget ih =>
      exact ih.of_mem_entries (Dict.mem_entries_of_get? hget)
  | delete key _ ih =>
      exact ih.delete key
  | ofList _ ih =>
      exact Value.WellFormed.ofList ih
  | assign path _ _ ihns ihv =>
      exact wellFormed_assign ihns ihv path

/-- A trailing dot makes the assignment fail, behind an array of two
places that is left there. -/
theorem wellFormed_after_failed_assign :
    (∃ unassigned, (assign .empty (Bytes.ofText "a[1].") (.int 7)).2 = .error unassigned) ∧
      (Value.dict (assign .empty (Bytes.ofText "a[1].") (.int 7)).1).WellFormed :=
  ⟨⟨_, rfl⟩,
    wellFormed_of_constructible
      (Constructible.assign (Bytes.ofText "a[1].") Constructible.emptyDict
        (Constructible.int 7))⟩

end Stencil
