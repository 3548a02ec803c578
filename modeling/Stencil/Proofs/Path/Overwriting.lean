import Stencil.Proofs.Path.Member

/-!
# Overwriting a place

The second of two assignments to one path leaves what it would have left without the
first.  To assign what a look-up finds there changes nothing but the place of the last
entry in its dictionary.
-/

namespace Stencil

namespace Value

/-!
# Storing twice
-/

theorem exists_graft?_again {v m : Value} {slot : Option Value} {steps : List Step}
    (h : graft? v slot steps = some m) (w : Value) :
    ∃ r, graft? w (some m) steps = some r ∧ graft? w slot steps = some r := by
  induction steps generalizing slot m with
  | nil =>
      exact ⟨w, graft?_nil w (some m), graft?_nil w slot⟩
  | cons step rest ih =>
      rcases (graft?_cons_eq_some_iff rfl).mp h with ⟨hadmits, x, hx, rfl⟩
      rcases ih hx with ⟨y, hagain, hy⟩
      refine ⟨_, ?_, (graft?_cons_eq_some_iff rfl).mpr ⟨hadmits, y, hy, rfl⟩⟩
      apply (graft?_cons_eq_some_iff rfl).mpr
      refine ⟨(admits_install_iff _ step rest x step).mpr hadmits, y, ?_, ?_⟩
      · rw [Option.getD_some, hadmits.member?_install]
        exact hagain
      · exact hadmits.install_install rest x y

/-!
# Storing what is there
-/

/-- The second value is the first one with the entry of `key` moved to the end of the
dictionary that the steps lead to; whatever else there is stays in its place. -/
inductive MovesLast (key : Bytes) : List Step → Value → Value → Prop where
  | here {before behind : List (Bytes × Value)} {v : Value} :
      MovesLast key [] (.dict ⟨before ++ (key, v) :: behind⟩)
        (.dict ⟨before ++ behind ++ [(key, v)]⟩)
  | entry {before behind : List (Bytes × Value)} {name : Bytes} {rest : List Step}
    {v w : Value} :
      MovesLast key rest v w →
      MovesLast key (.name name :: rest) (.dict ⟨before ++ (name, v) :: behind⟩)
        (.dict ⟨before ++ (name, w) :: behind⟩)
  | element {before behind : List Value} {rest : List Step} {v w : Value} :
      MovesLast key rest v w →
      MovesLast key (.index before.length :: rest) (.array (before ++ v :: behind))
        (.array (before ++ w :: behind))

theorem MovesLast.cons {key : Bytes} {c v w : Value} {step : Step} {rest : List Step}
    (hc : c.Distinct) (hmember : c.member? step = some v) (h : MovesLast key rest v w) :
    MovesLast key (step :: rest) c (c.place step w) := by
  rcases (admits_of_member? hmember).exists_container with ⟨d, name, rfl, rfl⟩
    | ⟨items, i, rfl, rfl⟩
  · rcases hc.keys.exists_entry hmember with ⟨before, behind, rfl, hne⟩
    rw [place, Dict.put_entry hne]
    exact MovesLast.entry h
  · rcases Items.exists_element hmember with ⟨before, behind, rfl, rfl⟩
    rw [place, Items.put_element]
    exact MovesLast.element h

theorem graft?_cons_of_member? {c v x y : Value} {step : Step} {rest : List Step}
    (hmember : c.member? step = some x) (hrest : rest ≠ [])
    (h : graft? v (some x) rest = some y) :
    graft? v (some c) (step :: rest) = some (c.place step y) := by
  apply (graft?_cons_eq_some_iff rfl).mpr
  refine ⟨admits_of_member? hmember, y, ?_, install_of_ne_nil c step hrest y⟩
  rw [Option.getD_some, hmember]
  exact h

theorem append_singleton_ne_nil (front : List Step) (last : Step) : front ++ [last] ≠ [] :=
  List.append_ne_nil_of_right_ne_nil front (List.cons_ne_nil last [])

theorem Distinct.graft?_index_self {c v : Value} {front : List Step} {i : Nat}
    (hc : c.Distinct) (h : c.follow? (front ++ [.index i]) = some v) :
    Value.graft? v (some c) (front ++ [.index i]) = some c := by
  induction front generalizing c with
  | nil =>
      rw [List.nil_append, follow?_cons] at h
      rcases Option.bind_eq_some_iff.mp h with ⟨x, hx, hv⟩
      cases hv
      apply (graft?_cons_eq_some_iff rfl).mpr
      refine ⟨admits_of_member? hx, v, graft?_nil v _, ?_⟩
      rw [install_index]
      exact hc.place_self hx
  | cons step front ih =>
      rw [List.cons_append, follow?_cons] at h
      rcases Option.bind_eq_some_iff.mp h with ⟨x, hx, hrest⟩
      have hgraft := graft?_cons_of_member? hx (append_singleton_ne_nil front _)
        (ih (hc.member hx) hrest)
      rw [hc.place_self hx] at hgraft
      exact hgraft

theorem Distinct.same_replace_self {d : Dict Value} {key : Bytes} {v : Value}
    (hd : (dict d).Distinct) (hget : d.get? key = some v) :
    same (.dict (d.replace key v)) (.dict d) = true := by
  have hreplace : ∀ other, (d.replace key v).get? other = d.get? other := by
    intro other
    by_cases hother : other = key
    · rw [hother, Dict.get?_replace_self, hget]
    · exact Dict.get?_replace_of_ne d v hother
  apply same_dict_of_get? (hd.keys.replace key v) hd.keys
  · intro other hnone
    rw [← hreplace]
    exact hnone
  · intro other x hx
    rw [hreplace] at hx
    have hmember : (dict d).member? (.name other) = some x := hx
    exact ⟨x, hx, (hd.member hmember).same_self⟩

theorem Distinct.exists_graft?_name_self {c v : Value} {front : List Step} {key : Bytes}
    (hc : c.Distinct) (hv : v.Distinct) (h : c.follow? (front ++ [.name key]) = some v) :
    ∃ w, Value.graft? v (some c) (front ++ [.name key]) = some w ∧ MovesLast key front c w ∧
      same w c = true := by
  induction front generalizing c with
  | nil =>
      rw [List.nil_append, follow?_cons] at h
      rcases Option.bind_eq_some_iff.mp h with ⟨x, hx, hlast⟩
      cases hlast
      rcases (admits_of_member? hx).exists_container with ⟨d, name, rfl, hname⟩
        | ⟨_, _, _, hindex⟩
      · cases hname
        refine ⟨.dict (d.replace key v), ?_, ?_, hc.same_replace_self hx⟩
        · apply (graft?_cons_eq_some_iff rfl).mpr
          exact ⟨admits_of_member? hx, v, graft?_nil v _, rfl⟩
        · rcases hc.keys.exists_entry hx with ⟨before, behind, rfl, hne⟩
          rw [Dict.replace_entry hne]
          exact MovesLast.here
      · cases hindex
  | cons step front ih =>
      rw [List.cons_append, follow?_cons] at h
      rcases Option.bind_eq_some_iff.mp h with ⟨x, hx, hrest⟩
      have hxDistinct := hc.member hx
      rcases ih hxDistinct hrest with ⟨y, hy, hmoves, hsame⟩
      refine ⟨c.place step y, ?_, hmoves.cons hc hx, ?_⟩
      · exact graft?_cons_of_member? hx (append_singleton_ne_nil front _) hy
      · have hplace := same_place hc (admits_of_member? hx) (hxDistinct.graft?_some hv hy)
          hxDistinct hsame
        rw [hc.place_self hx] at hplace
        exact hplace

end Value

theorem Path.Spells.exists_last {path : Path} {steps : List Step}
    (h : Path.Spells path steps) :
    ∃ front last, steps = front ++ [last] := by
  have hne : steps ≠ [] := by
    cases h with
    | start _ _ =>
        exact List.cons_ne_nil _ _
  exact ⟨_, _, (List.dropLast_concat_getLast hne).symm⟩

/-!
# The theorem
-/

/-- Wherever a value has been assigned any other one can be assigned after it, and leaves
the namespace exactly as if it had been the only one.  To assign the value that a look-up
finds changes nothing in it behind an index, and behind a name moves that entry to the end
of its dictionary. -/
theorem assign_lens_laws (ns : Dict Value) (path : Path) (v : Value) :
    (∀ ns₁ w, assign ns path v = (ns₁, .ok ()) →
      ∃ ns₂, assign ns₁ path w = (ns₂, .ok ()) ∧ assign ns path w = (ns₂, .ok ())) ∧
    ((Value.dict ns).Distinct → lookup ns path = .ok v →
      ∃ ns' steps, assign ns path v = (ns', .ok ()) ∧
        Value.same (.dict ns') (.dict ns) = true ∧ Path.Spells path steps ∧
        ((∃ front i, steps = front ++ [.index i] ∧ ns' = ns) ∨
          ∃ front key, steps = front ++ [.name key] ∧
            Value.MovesLast key front (.dict ns) (.dict ns'))) := by
  constructor
  · intro ns₁ w h
    rcases (assign_eq_ok_iff ns ns₁ path v).mp h with ⟨steps, hspells, hgraft⟩
    rcases Value.exists_graft?_again hgraft w with ⟨r, hagain, honce⟩
    rcases hspells.exists_dict honce with ⟨ns₂, rfl⟩
    exact ⟨ns₂, (hspells.assign_eq_ok_iff ns₁ ns₂ w).mpr hagain,
      (hspells.assign_eq_ok_iff ns ns₂ w).mpr honce⟩
  · intro hns h
    rcases (lookup_eq_ok_iff ns path v).mp h with ⟨steps, hspells, hfollow⟩
    rcases hspells.exists_last with ⟨front, last, rfl⟩
    cases last with
    | index i =>
        have hgraft := hns.graft?_index_self hfollow
        exact ⟨ns, _, (hspells.assign_eq_ok_iff ns ns v).mpr hgraft, hns.same_self, hspells,
          Or.inl ⟨front, i, rfl, rfl⟩⟩
    | name key =>
        rcases hns.exists_graft?_name_self (hns.follow hfollow) hfollow with
          ⟨w, hgraft, hmoves, hsame⟩
        rcases hspells.exists_dict hgraft with ⟨ns', rfl⟩
        exact ⟨ns', _, (hspells.assign_eq_ok_iff ns ns' v).mpr hgraft, hsame, hspells,
          Or.inr ⟨front, key, rfl, hmoves⟩⟩

theorem assign_lens_laws_first_of_two :
    assign ⟨[(Bytes.ofText "x", .int 1), (Bytes.ofText "y", .int 2)]⟩
      (Bytes.ofText "x") (.int 1) =
        (⟨[(Bytes.ofText "y", .int 2), (Bytes.ofText "x", .int 1)]⟩, .ok ()) ∧
      Value.same (.dict ⟨[(Bytes.ofText "y", .int 2), (Bytes.ofText "x", .int 1)]⟩)
        (.dict ⟨[(Bytes.ofText "x", .int 1), (Bytes.ofText "y", .int 2)]⟩) = true ∧
      ∃ ns₂, assign ⟨[(Bytes.ofText "y", .int 2), (Bytes.ofText "x", .int 1)]⟩
        (Bytes.ofText "x")
          (.int 3) = (ns₂, .ok ()) ∧
        assign ⟨[(Bytes.ofText "x", .int 1), (Bytes.ofText "y", .int 2)]⟩ (Bytes.ofText "x")
          (.int 3) = (ns₂, .ok ()) := by
  have hx : (Value.dict ⟨[(Bytes.ofText "x", .int 1)]⟩).Distinct :=
    (Value.Distinct.container (.name (Bytes.ofText "x"))).place (Value.admits_container _)
      (Value.Distinct.int 1)
  have hadmits : (Value.dict ⟨[(Bytes.ofText "x", .int 1)]⟩).Admits
      (.name (Bytes.ofText "y")) :=
    trivial
  have hns :
      (Value.dict ⟨[(Bytes.ofText "x", .int 1), (Bytes.ofText "y", .int 2)]⟩).Distinct :=
    hx.place hadmits (Value.Distinct.int 2)
  rcases assign_lens_laws ⟨[(Bytes.ofText "x", .int 1), (Bytes.ofText "y", .int 2)]⟩
    (Bytes.ofText "x") (.int 1) with ⟨hagain, hself⟩
  rcases hself hns rfl with ⟨ns', _, hassign, hsame, _⟩
  have hagain' := hagain ns' (.int 3) hassign
  cases hassign
  exact ⟨rfl, hsame, hagain'⟩

end Stencil
