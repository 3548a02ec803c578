import Stencil.Proofs.Path.Member
import Stencil.Proofs.Path.Stopping
import Mathlib.Data.List.Forall2
import Mathlib.Data.List.Nodup
import Mathlib.Data.List.Perm.Subperm
import Mathlib.Logic.Relation

/-!
# Equality up to the order of entries

Values are structurally equal exactly when one can be made from the other by rearranging
the entries of dictionaries, at whatever depth.  Equal values have equal members at each
step, so that no path tells them apart.
-/

namespace Stencil

theorem rel_symm {α : Type} {R S : α → α → Prop} {x y : Option α} (h : Option.Rel R x y)
    (hflip : ∀ v w, x = some v → y = some w → R v w → S w v) : Option.Rel S y x := by
  cases h with
  | none =>
      exact Option.Rel.none
  | some hvw =>
      exact Option.Rel.some (hflip _ _ rfl rfl hvw)

theorem rel_trans {α : Type} {R S : α → α → Prop} {x y z : Option α} (h : Option.Rel R x y)
    (h' : Option.Rel R y z)
    (hcomp : ∀ u v w, x = some u → y = some v → z = some w → R u v → R v w → S u w) :
    Option.Rel S x z := by
  cases h with
  | none =>
      cases h'
      exact Option.Rel.none
  | some huv =>
      cases h' with
      | some hvw =>
          exact Option.Rel.some (hcomp _ _ _ rfl rfl rfl huv hvw)

theorem rel_eq_none {α : Type} {R : α → α → Prop} {x y : Option α} (h : Option.Rel R x y)
    (hx : x = none) : y = none := by
  cases h with
  | none =>
      rfl
  | some _ =>
      cases hx

theorem rel_eq_some {α : Type} {R : α → α → Prop} {x y : Option α} (h : Option.Rel R x y)
    {v : α} (hx : x = some v) : ∃ w, y = some w ∧ R v w := by
  cases h with
  | none =>
      cases hx
  | some hvw =>
      cases hx
      exact ⟨_, rfl, hvw⟩

namespace Value

/-!
# Parts of distinct values
-/

namespace Distinct

theorem array {items : List Value} (h : ∀ v ∈ items, v.Distinct) :
    (Value.array items).Distinct := by
  constructor
  · intro d hd
    cases hd
  · intro step w hw
    cases step with
    | name name =>
        cases hw
    | index i =>
        exact h w (List.mem_of_getElem? hw)

theorem dict {d : Dict Value} (hkeys : d.Distinct) (h : ∀ e ∈ d.entries, e.2.Distinct) :
    (Value.dict d).Distinct := by
  constructor
  · intro other hother
    cases hother
    exact hkeys
  · intro step w hw
    cases step with
    | name name =>
        exact h _ (Dict.mem_entries_of_get? hw)
    | index i =>
        cases hw

theorem of_mem_entries {d : Dict Value} (h : (Value.dict d).Distinct) {e : Bytes × Value}
    (he : e ∈ d.entries) : e.2.Distinct := by
  have hmember : (Value.dict d).member? (.name e.1) = some e.2 := h.keys.get?_of_mem he
  exact h.member hmember

end Distinct

/-!
# Members of equal values
-/

abbrev SameSlots : Option Value → Option Value → Prop :=
  Option.Rel fun v w => same v w = true

def shell : Value → Value
  | .array _ => .array []
  | .dict _ => .dict .empty
  | v => v

theorem same_dict_iff (d d' : Dict Value) :
    same (.dict d) (.dict d') = true ↔ d.size = d'.size ∧ sameEntries d.entries d' = true := by
  rw [same, Bool.and_eq_true, beq_iff_eq]
  rfl

theorem keys_perm_of_same {d d' : Dict Value} (hd : d.Distinct)
    (h : same (.dict d) (.dict d') = true) : d.keys.Perm d'.keys := by
  rcases (same_dict_iff d d').mp h with ⟨hsize, hentries⟩
  have hsubset : d.keys ⊆ d'.keys := by
    intro key hkey
    rcases List.mem_map.mp hkey with ⟨e, he, rfl⟩
    rcases (sameEntries_iff d.entries d').mp hentries e he with ⟨w, hw, _⟩
    exact List.mem_map.mpr ⟨(e.1, w), Dict.mem_entries_of_get? hw, rfl⟩
  have hlength : d'.keys.length ≤ d.keys.length := by
    rw [Dict.keys, Dict.keys, List.length_map, List.length_map]
    exact Nat.le_of_eq hsize.symm
  exact (List.subperm_of_subset hd hsubset).perm_of_length_le hlength

theorem sameSlots_get? {d d' : Dict Value} (hd : d.Distinct)
    (h : same (.dict d) (.dict d') = true) (key : Bytes) :
    SameSlots (d.get? key) (d'.get? key) := by
  cases hget : d.get? key with
  | some v =>
      have hentries := ((same_dict_iff d d').mp h).right
      rcases (sameEntries_iff _ _).mp hentries _ (Dict.mem_entries_of_get? hget) with
        ⟨w, hw, hsame⟩
      have hget' : d'.get? key = some w := hw
      rw [hget']
      exact Option.Rel.some hsame
  | none =>
      have hmissing := (d.get?_eq_none_iff key).mp hget
      rw [(keys_perm_of_same hd h).mem_iff] at hmissing
      rw [(d'.get?_eq_none_iff key).mpr hmissing]
      exact Option.Rel.none

theorem sameSlots_getElem? {items items' : List Value}
    (h : same (.array items) (.array items') = true) (i : Nat) :
    SameSlots items[i]? items'[i]? := by
  rcases (sameItems_iff items items').mp h with ⟨hlength, hitems⟩
  by_cases hi : i < items.length
  · have hget := List.getElem?_eq_getElem hi
    have hget' := List.getElem?_eq_getElem (hlength ▸ hi)
    rw [hget, hget']
    exact Option.Rel.some (hitems i _ _ hget hget')
  · have hi' : items'.length ≤ i := hlength ▸ Nat.le_of_not_lt hi
    rw [List.getElem?_eq_none (Nat.le_of_not_lt hi), List.getElem?_eq_none hi']
    exact Option.Rel.none

theorem sameSlots_of_same {a b : Value} (ha : a.Distinct) (h : same a b = true) (step : Step) :
    SameSlots (a.member? step) (b.member? step) := by
  have hkind := kind_eq_of_same h
  cases a <;> cases b <;> cases hkind
  case dict.dict.refl d d' =>
    cases step with
    | name name =>
        exact sameSlots_get? ha.keys h name
    | index i =>
        exact Option.Rel.none
  case array.array.refl items items' =>
    cases step with
    | name name =>
        exact Option.Rel.none
    | index i =>
        exact sameSlots_getElem? h i
  all_goals exact Option.Rel.none

theorem shell_eq_of_same {a b : Value} (h : same a b = true) : a.shell = b.shell := by
  have hkind := kind_eq_of_same h
  cases a <;> cases b <;> cases hkind
  case int.int.refl n m =>
    exact congrArg Value.int (beq_iff_eq.mp h)
  case string.string.refl bytes bytes' =>
    exact congrArg Value.string (beq_iff_eq.mp h)
  all_goals rfl

theorem same_of_sameSlots {a b : Value} (ha : a.Distinct) (hb : b.Distinct)
    (hshell : a.shell = b.shell)
    (hmembers : ∀ step, SameSlots (a.member? step) (b.member? step)) :
    same a b = true := by
  have hmissing := fun step => rel_eq_none (hmembers step)
  have hsame := fun step v => rel_eq_some (v := v) (hmembers step)
  cases a <;> cases b <;> cases hshell
  case dict.dict.refl d d' =>
    have hadmits : (Value.dict d).Admits (.name []) := trivial
    exact same_of_member? ha hb hadmits trivial hmissing hsame
  case array.array.refl items items' =>
    have hadmits : (Value.array items).Admits (.index 0) := trivial
    exact same_of_member? ha hb hadmits trivial hmissing hsame
  case int.int.refl n =>
    exact beq_self_eq_true n
  case string.string.refl bytes =>
    exact beq_self_eq_true bytes
  case none.none.refl =>
    rfl

/-!
# An equivalence
-/

theorem same_symm {a b : Value} (ha : a.Distinct) (hb : b.Distinct) (h : same a b = true) :
    same b a = true := by
  induction ha generalizing b with
  | @intro a hkeys hdistinct ih =>
      have ha : a.Distinct := Distinct.intro hkeys hdistinct
      apply same_of_sameSlots hb ha (shell_eq_of_same h).symm
      intro step
      apply rel_symm (sameSlots_of_same ha h step)
      intro v w hv hw hsame
      exact ih step v hv (hb.member hw) hsame

theorem same_trans {a b c : Value} (ha : a.Distinct) (hb : b.Distinct) (hc : c.Distinct)
    (hab : same a b = true) (hbc : same b c = true) : same a c = true := by
  induction ha generalizing b c with
  | @intro a hkeys hdistinct ih =>
      have ha : a.Distinct := Distinct.intro hkeys hdistinct
      apply same_of_sameSlots ha hc ((shell_eq_of_same hab).trans (shell_eq_of_same hbc))
      intro step
      apply rel_trans (sameSlots_of_same ha hab step) (sameSlots_of_same hb hbc step)
      intro u v w hu hv hw huv hvw
      exact ih step u hu (hb.member hv) (hc.member hw) huv hvw

theorem length_eq_of_same {a b : Value} (h : same a b = true) : a.length = b.length := by
  have hkind := kind_eq_of_same h
  cases a <;> cases b <;> cases hkind
  case string.string.refl bytes bytes' =>
    exact congrArg List.length (beq_iff_eq.mp h)
  case array.array.refl items items' =>
    exact ((sameItems_iff items items').mp h).left
  case dict.dict.refl d d' =>
    exact ((same_dict_iff d d').mp h).left
  all_goals rfl

theorem isEmpty_eq_of_length {α : Type} {l l' : List α} (h : l.length = l'.length) :
    l.isEmpty = l'.isEmpty := by
  rw [Bool.eq_iff_iff, List.isEmpty_iff_length_eq_zero, List.isEmpty_iff_length_eq_zero, h]

theorem isTruthy_eq_of_same {a b : Value} (h : same a b = true) : a.isTruthy = b.isTruthy := by
  have hkind := kind_eq_of_same h
  have hlength := length_eq_of_same h
  cases a <;> cases b <;> cases hkind
  case int.int.refl n m =>
    rw [beq_iff_eq.mp h]
  case none.none.refl =>
    rfl
  all_goals exact congrArg (! ·) (isEmpty_eq_of_length hlength)

/-!
# Rearranging
-/

/-- The entries of one dictionary, the value itself or one inside of it, are
put in another order. -/
inductive Rearranges : Value → Value → Prop where
  | entries {d d' : Dict Value} : d.entries.Perm d'.entries → Rearranges (.dict d) (.dict d')
  | member {c v w : Value} {step : Step} :
      c.member? step = some v → Rearranges v w → Rearranges c (c.place step w)

abbrev Rearranged : Value → Value → Prop :=
  Relation.ReflTransGen Rearranges

theorem Rearranges.distinct_same {a b : Value} (h : Rearranges a b) (ha : a.Distinct) :
    b.Distinct ∧ same a b = true := by
  induction h with
  | @entries d d' hperm =>
      have hkeys : d'.Distinct := (hperm.map Prod.fst).nodup ha.keys
      have hget : ∀ key, d'.get? key = d.get? key := by
        intro key
        have hadded : d'.entries.Perm (d.entries ++ []) := by
          rw [List.append_nil]
          exact hperm.symm
        exact hkeys.get?_of_perm hadded nofun
      constructor
      · apply Distinct.dict hkeys
        intro e he
        exact ha.of_mem_entries (hperm.mem_iff.mpr he)
      · apply same_dict_of_get? ha.keys hkeys
        · intro key hnone
          exact (hget key).trans hnone
        · intro key v hv
          have hmember : (Value.dict d).member? (.name key) = some v := hv
          exact ⟨v, (hget key).trans hv, (ha.member hmember).same_self⟩
  | @member c v w step hv _ ih =>
      have hvd := ha.member hv
      rcases ih hvd with ⟨hw, hsame⟩
      have hadmits := admits_of_member? hv
      have hplace := same_place ha hadmits hvd hw hsame
      rw [ha.place_self hv] at hplace
      exact ⟨ha.place hadmits hw, hplace⟩

theorem Rearranged.distinct_same {a b : Value} (h : Rearranged a b) (ha : a.Distinct) :
    b.Distinct ∧ same a b = true := by
  induction h with
  | refl =>
      exact ⟨ha, ha.same_self⟩
  | tail _ hstep ih =>
      rcases ih with ⟨hmid, hsame⟩
      rcases hstep.distinct_same hmid with ⟨hlast, hstepSame⟩
      exact ⟨hlast, same_trans ha hmid hlast hsame hstepSame⟩

theorem Rearranged.place {c v w : Value} {step : Step} (h : Rearranged v w) (hc : c.Distinct)
    (hv : c.member? step = some v) : Rearranged c (c.place step w) := by
  have hadmits := admits_of_member? hv
  induction h with
  | refl =>
      rw [hc.place_self hv]
  | @tail x y _ hstep ih =>
      have hmember : (c.place step x).member? step = some x := hadmits.member?_place x
      have hnext := Rearranges.member hmember hstep
      rw [place_place] at hnext
      exact ih.tail hnext

theorem rearranged_array {items items' : List Value} (h : List.Forall₂ Rearranged items items')
    (front : List Value) (hdistinct : (Value.array (front ++ items)).Distinct) :
    Rearranged (.array (front ++ items)) (.array (front ++ items')) := by
  induction h generalizing front with
  | nil =>
      exact Relation.ReflTransGen.refl
  | @cons v w items items' hvw _ ih =>
      have hmember : (Value.array (front ++ v :: items)).member? (.index front.length) =
          some v := by
        simp [member?]
      have hfirst := hvw.place hdistinct hmember
      rw [Value.place, Items.put_element] at hfirst
      have hrest := ih (front ++ [w])
      rw [List.append_assoc, List.append_assoc] at hrest
      exact hfirst.trans (hrest (hfirst.distinct_same hdistinct).left)

theorem rearranged_dict {entries entries' : List (Bytes × Value)}
    (h : List.Forall₂ (fun e e' => e.1 = e'.1 ∧ Rearranged e.2 e'.2) entries entries')
    (front : List (Bytes × Value)) (hdistinct : (Value.dict ⟨front ++ entries⟩).Distinct) :
    Rearranged (.dict ⟨front ++ entries⟩) (.dict ⟨front ++ entries'⟩) := by
  induction h generalizing front with
  | nil =>
      exact Relation.ReflTransGen.refl
  | @cons e e' entries entries' he _ ih =>
      rcases e with ⟨key, v⟩
      rcases e' with ⟨key', w⟩
      rcases he with ⟨hkey, hvw⟩
      have hkey : key = key' := hkey
      subst hkey
      have hmem : (key, v) ∈ front ++ (key, v) :: entries :=
        List.mem_append_right front List.mem_cons_self
      have hmember : (Value.dict ⟨front ++ (key, v) :: entries⟩).member? (.name key) =
          some v :=
        hdistinct.keys.get?_of_mem hmem
      have hfirst := hvw.place hdistinct hmember
      rw [Value.place, Dict.put_entry hdistinct.keys.ne_key] at hfirst
      have hrest := ih (front ++ [(key, w)])
      rw [List.append_assoc, List.append_assoc] at hrest
      exact hfirst.trans (hrest (hfirst.distinct_same hdistinct).left)

theorem perm_in_order {d d' : Dict Value} (hd : d.Distinct) (hd' : d'.Distinct)
    (hkeys : d.keys.Perm d'.keys) :
    d.entries.Perm (d'.entries.map fun e => (e.1, (d.get? e.1).getD .none)) := by
  have hnodup : (d'.entries.map fun e => (e.1, (d.get? e.1).getD .none)).Nodup := by
    apply List.Nodup.of_map Prod.fst
    rw [List.map_map]
    exact hd'
  rw [List.perm_ext_iff_of_nodup (List.Nodup.of_map Prod.fst hd) hnodup]
  intro e
  rw [List.mem_map]
  constructor
  · intro he
    rcases List.mem_map.mp (hkeys.mem_iff.mp (List.mem_map_of_mem he)) with ⟨e', he', hkey⟩
    refine ⟨e', he', ?_⟩
    rw [hkey, hd.get?_of_mem he, Option.getD_some]
  · rintro ⟨e', he', rfl⟩
    rcases List.mem_map.mp (hkeys.mem_iff.mpr (List.mem_map_of_mem he')) with ⟨e, he, hkey⟩
    rw [← hkey, hd.get?_of_mem he, Option.getD_some]
    exact he

theorem rearranged_of_same {a b : Value} (ha : a.Distinct) (hb : b.Distinct)
    (h : same a b = true) : Rearranged a b := by
  induction ha generalizing b with
  | @intro a hkeys hdistinct ih =>
      have ha : a.Distinct := Distinct.intro hkeys hdistinct
      have hslots := sameSlots_of_same ha h
      have hshell := shell_eq_of_same h
      cases a <;> cases b <;> cases hshell
      case array.array.refl items items' =>
        apply rearranged_array _ [] ha
        rw [List.forall₂_iff_get]
        refine ⟨((sameItems_iff items items').mp h).left, fun i hi hi' => ?_⟩
        have hv : (Value.array items).member? (.index i) = some items[i] :=
          List.getElem?_eq_getElem hi
        have hw : (Value.array items').member? (.index i) = some items'[i] :=
          List.getElem?_eq_getElem hi'
        have hslot := hslots (.index i)
        rw [hv, hw] at hslot
        cases hslot with
        | some hsame =>
            exact ih (.index i) _ hv (hb.member hw) hsame
      case dict.dict.refl d d' =>
        have hperm := perm_in_order ha.keys hb.keys (keys_perm_of_same ha.keys h)
        have hfirst : Rearranges (.dict d)
            (.dict ⟨d'.entries.map fun e => (e.1, (d.get? e.1).getD .none)⟩) :=
          Rearranges.entries hperm
        apply Relation.ReflTransGen.head hfirst
        apply rearranged_dict _ [] (hfirst.distinct_same ha).left
        rw [List.forall₂_map_left_iff, List.forall₂_same]
        intro e he
        have hw : d'.get? e.1 = some e.2 := hb.keys.get?_of_mem he
        rcases rel_eq_some (rel_symm (hslots (.name e.1)) fun _ _ _ _ hsame => hsame) hw with
          ⟨v, hv, hsame⟩
        have hv : d.get? e.1 = some v := hv
        rw [hv, Option.getD_some]
        have hmember : (Value.dict d).member? (.name e.1) = some v := hv
        exact ⟨rfl, ih (.name e.1) v hmember (hb.of_mem_entries he) hsame⟩
      all_goals exact Relation.ReflTransGen.refl

end Value

/-!
# Looking up in equal namespaces
-/

/-- Two look-ups fail alike or find equal values. -/
inductive SameFinding : Except PathError Value → Except PathError Value → Prop where
  | failed (e : PathError) : SameFinding (.error e) (.error e)
  | found {v w : Value} : Value.same v w = true → SameFinding (.ok v) (.ok w)

namespace Path

theorem admits_iff_of_same {v w : Value} (h : Value.same v w = true) (step : Step) :
    v.Admits step ↔ w.Admits step := by
  have hkind := Value.kind_eq_of_same h
  cases v <;> cases w <;> cases hkind <;> cases step <;> exact Iff.rfl

theorem sameFinding_nil (path : Path) (label : Bytes) {v w : Value} (h : Value.same v w = true)
    (ending : Ending) :
    SameFinding (find path label v [] ending) (find path label w [] ending) := by
  cases ending with
  | complete =>
      exact SameFinding.found h
  | stray offset =>
      exact SameFinding.failed _
  | _ =>
      have hkind := Value.kind_eq_of_same h
      cases v <;> cases w <;> cases hkind <;> exact SameFinding.failed _

theorem sameFinding_find (path : Path) (label : Bytes) {v w : Value} (hv : v.Distinct)
    (hw : w.Distinct) (h : Value.same v w = true) (segments : List Segment) (ending : Ending) :
    SameFinding (find path label v segments ending) (find path label w segments ending) := by
  induction segments generalizing label v w with
  | nil =>
      exact sameFinding_nil path label h ending
  | cons segment rest ih =>
      by_cases hadmits : v.Admits segment.step
      · have hadmits' := (admits_iff_of_same h segment.step).mp hadmits
        have hslot := Value.sameSlots_of_same hv h segment.step
        rw [find_admitted path label hadmits, find_admitted path label hadmits']
        cases hx : v.member? segment.step with
        | none =>
            rw [rel_eq_none hslot hx]
            exact SameFinding.failed _
        | some x =>
            rcases rel_eq_some hslot hx with ⟨y, hy, hsame⟩
            rw [hy]
            exact ih _ (hv.member hx) (hw.member hy) hsame
      · have hadmits' := (admits_iff_of_same h segment.step).not.mp hadmits
        rw [find_unfit path label hadmits, find_unfit path label hadmits']
        exact SameFinding.failed _

end Path

theorem sameFinding_lookup {ns ns' : Dict Value} (hns : (Value.dict ns).Distinct)
    (hns' : (Value.dict ns').Distinct) (h : Value.same (.dict ns) (.dict ns') = true)
    (path : Path) :
    SameFinding (lookup ns path) (lookup ns' path) :=
  Path.sameFinding_find path [] hns hns' h path.read.segments path.read.ending

/-!
# The theorem
-/

/-- Among values whose dictionaries list no key twice, structural equality is an
equivalence.  Two of them are equal exactly when one can be made from the other by
rearranging entries.  Equal values agree in kind, truth and length, and what is looked up
in equal namespaces fails alike or is equal. -/
theorem same_up_to_entry_order {a b c : Value} (ha : a.Distinct) (hb : b.Distinct)
    (hc : c.Distinct) :
    a.same a = true ∧
      (a.same b = true → b.same a = true) ∧
      (a.same b = true → b.same c = true → a.same c = true) ∧
      (a.same b = true ↔ Value.Rearranged a b) ∧
      (a.same b = true → a.kind = b.kind ∧ a.isTruthy = b.isTruthy ∧ a.length = b.length) ∧
      ∀ ns ns', a = .dict ns → b = .dict ns' → a.same b = true →
        ∀ path, SameFinding (lookup ns path) (lookup ns' path) := by
  refine ⟨ha.same_self, Value.same_symm ha hb, Value.same_trans ha hb hc, ?_, ?_, ?_⟩
  · constructor
    · exact Value.rearranged_of_same ha hb
    · intro h
      exact (h.distinct_same ha).right
  · intro h
    exact ⟨Value.kind_eq_of_same h, Value.isTruthy_eq_of_same h, Value.length_eq_of_same h⟩
  · rintro ns ns' rfl rfl h
    exact sameFinding_lookup ha hb h

def pageList : Dict Value :=
  ⟨[(Bytes.ofText "pages", .array
      [.dict ⟨[(Bytes.ofText "no", .int 1),
        (Bytes.ofText "title", .string (Bytes.ofText "A"))]⟩]),
    (Bytes.ofText "site", .none)]⟩

def pageListReordered : Dict Value :=
  ⟨[(Bytes.ofText "site", .none),
    (Bytes.ofText "pages", .array
      [.dict ⟨[(Bytes.ofText "title", .string (Bytes.ofText "A")),
        (Bytes.ofText "no", .int 1)]⟩])]⟩

theorem distinct_pageList : (Value.dict pageList).Distinct := by
  have hpage : (Value.dict ⟨[(Bytes.ofText "no", .int 1),
      (Bytes.ofText "title", .string (Bytes.ofText "A"))]⟩).Distinct := by
    apply Value.Distinct.dict
    · unfold Dict.Distinct
      decide
    · simp [Value.Distinct.int, Value.Distinct.string]
  apply Value.Distinct.dict
  · unfold Dict.Distinct
    decide
  · simp only [pageList, List.forall_mem_cons]
    exact ⟨Value.Distinct.array (List.forall_mem_singleton.mpr hpage),
      Value.Distinct.none, nofun⟩

theorem rearranged_pageList : Value.Rearranged (.dict pageList) (.dict pageListReordered) := by
  have hpage : Value.Rearranges
      (.dict ⟨[(Bytes.ofText "no", .int 1),
        (Bytes.ofText "title", .string (Bytes.ofText "A"))]⟩)
      (.dict ⟨[(Bytes.ofText "title", .string (Bytes.ofText "A")),
        (Bytes.ofText "no", .int 1)]⟩) :=
    Value.Rearranges.entries (List.Perm.swap _ _ _)
  have hpages : Value.Rearranges (.array [.dict _])
      (Value.place (.array [.dict _]) (.index 0) _) :=
    Value.Rearranges.member rfl hpage
  have hinside : Value.Rearranges (.dict pageList)
      (Value.place (.dict pageList) (.name (Bytes.ofText "pages")) _) :=
    Value.Rearranges.member rfl hpages
  apply Relation.ReflTransGen.head hinside
  apply Relation.ReflTransGen.single
  exact Value.Rearranges.entries (List.Perm.swap _ _ _)

theorem same_pageListReordered :
    (Value.dict pageList).Distinct ∧ (Value.dict pageListReordered).Distinct ∧
      (Value.dict pageList).same (.dict pageListReordered) = true ∧
      SameFinding (lookup pageList (Bytes.ofText "pages[0].title"))
        (lookup pageListReordered (Bytes.ofText "pages[0].title")) := by
  have hdistinct := distinct_pageList
  have hreordered := (rearranged_pageList.distinct_same hdistinct).left
  rcases same_up_to_entry_order hdistinct hreordered hdistinct with ⟨_, _, _, hiff, _, hlookup⟩
  have hsame := hiff.mpr rearranged_pageList
  exact ⟨hdistinct, hreordered, hsame, hlookup pageList pageListReordered rfl rfl hsame _⟩

end Stencil
