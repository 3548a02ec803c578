import Stencil.Dict

/-!
# Laws of ordered dictionaries

What each operation does to the keys and to the value under a key: the operations
agree on the value that they store and leave all other keys alone, and all of
them keep the keys distinct.
-/

namespace Stencil

theorem mem_of_lookup {κ α : Type} [BEq κ] [LawfulBEq κ] {entries : List (κ × α)}
    {key : κ} {v : α} (h : entries.lookup key = some v) : (key, v) ∈ entries := by
  rcases List.lookup_eq_some_iff.mp h with ⟨front, back, hentries, _⟩
  rw [hentries]
  exact List.mem_append_right front List.mem_cons_self

namespace Dict

variable {α : Type}

/-!
# Presence
-/

theorem mem_keys_iff (d : Dict α) (key : Bytes) :
    key ∈ d.keys ↔ d.contains key = true := by
  rw [contains, get?, List.lookup_isSome_iff, keys, List.mem_map]
  constructor
  · rintro ⟨e, he, rfl⟩
    exact ⟨e, he, beq_self_eq_true e.1⟩
  · rintro ⟨e, he, hkey⟩
    exact ⟨e, he, (beq_iff_eq.mp hkey).symm⟩

theorem get?_eq_none_iff (d : Dict α) (key : Bytes) :
    d.get? key = none ↔ key ∉ d.keys := by
  rw [mem_keys_iff, contains]
  cases d.get? key <;> simp

theorem mem_entries_of_get? {d : Dict α} {key : Bytes} {v : α} (h : d.get? key = some v) :
    (key, v) ∈ d.entries :=
  mem_of_lookup h

@[simp]
theorem get?_empty (key : Bytes) : (empty : Dict α).get? key = none := rfl

/-!
# Values under a key
-/

theorem lookup_filter (keep : Bytes → Bool) (key : Bytes) (entries : List (Bytes × α)) :
    (entries.filter fun e => keep e.1).lookup key =
      if keep key then entries.lookup key else none := by
  induction entries with
  | nil =>
      simp
  | cons first rest ih =>
      rcases first with ⟨k, v⟩
      by_cases hk : key = k
      · by_cases hkeep : keep k
        · simp [hk, hkeep]
        · simpa [hk, hkeep] using ih
      · have hne : (key == k) = false := beq_eq_false_iff_ne.mpr hk
        by_cases hkeep : keep k
        · simp [hkeep, List.lookup_cons, hne, ih]
        · simp [hkeep, List.lookup_cons, hne, ih]

@[simp]
theorem get?_remove_self (d : Dict α) (key : Bytes) : (d.remove key).get? key = none := by
  rw [get?_eq_none_iff]
  simp [keys, remove]

theorem get?_remove_of_ne (d : Dict α) {key other : Bytes} (h : other ≠ key) :
    (d.remove key).get? other = d.get? other := by
  rw [get?, remove, lookup_filter (· != key), if_pos (bne_iff_ne.mpr h)]
  rfl

@[simp]
theorem get?_replace_self (d : Dict α) (key : Bytes) (value : α) :
    (d.replace key value).get? key = some value := by
  have h := get?_remove_self d key
  simp only [get?] at h
  simp [get?, replace, List.lookup_append, h]

theorem get?_replace_of_ne (d : Dict α) {key other : Bytes} (value : α) (h : other ≠ key) :
    (d.replace key value).get? other = d.get? other := by
  have hother : (other == key) = false := by
    simpa using h
  have hremove := get?_remove_of_ne d h
  simp only [get?] at hremove
  simp [get?, replace, List.lookup_append, hremove, List.lookup_cons, hother]

theorem update_replace (d : Dict α) (key : Bytes) (earlier value : α) :
    (d.replace key earlier).update key value = d.replace key value := by
  have hremove : (d.remove key).entries.map (fun e => if e.1 = key then (key, value) else e) =
      (d.remove key).entries := by
    rw [List.map_congr_left, List.map_id]
    intro e he
    have hne : e.1 ≠ key := by simpa [remove] using (List.mem_filter.mp he).2
    exact if_neg hne
  simp [replace, update, hremove]

private theorem lookup_map_update (key other : Bytes) (value : α) :
    (entries : List (Bytes × α)) →
      (entries.map fun e => if e.1 = key then (key, value) else e).lookup other =
        if other = key then (entries.lookup other).map fun _ => value else entries.lookup other
  | [] => by simp
  | (k, v) :: rest => by
      have ih := lookup_map_update key other value rest
      by_cases hk : k = key
      · by_cases hother : other = key
        · simp [hk, hother]
        · have hfalse : (other == key) = false := by
            simpa using hother
          simpa [hk, hother, hfalse, List.lookup_cons] using ih
      · by_cases hother : other = k
        · have hkey : other ≠ key := fun h => hk (hother.symm.trans h)
          simp [hk, hother]
        · have hfalse : (other == k) = false := by
            simpa using hother
          simpa [hk, hfalse, List.lookup_cons] using ih

theorem get?_update (d : Dict α) (key other : Bytes) (value : α) :
    (d.update key value).get? other =
      if other = key then (d.get? other).map fun _ => value else d.get? other :=
  lookup_map_update key other value d.entries

theorem get?_ensure (d : Dict α) (key other : Bytes) (value : α) :
    (d.ensure key value).get? other =
      if other = key then some ((d.get? key).getD value) else d.get? other := by
  unfold ensure contains
  cases hget : d.get? key with
  | some v =>
      by_cases hother : other = key
      · simp [hother, hget]
      · simp [hother]
  | none =>
      simp only [get?] at hget
      by_cases hother : other = key
      · simp [get?, List.lookup_append, hother, hget]
      · have hfalse : (other == key) = false := by
          simpa using hother
        simp [get?, List.lookup_append, hother, hfalse, List.lookup_cons]

theorem get?_put (d : Dict α) (key other : Bytes) (value : α) :
    (d.put key value).get? other = if other = key then some value else d.get? other := by
  rw [put, get?_update, get?_ensure]
  by_cases hother : other = key <;> simp [hother]

/-!
# Storing twice
-/

theorem update_update (d : Dict α) (key : Bytes) (earlier value : α) :
    (d.update key earlier).update key value = d.update key value := by
  rw [update, update, update, List.map_map]
  congr 1
  apply List.map_congr_left
  intro e _
  by_cases he : e.1 = key
  · simp [he]
  · simp [he]

/-- The value of a new entry does not matter when it is updated at once. -/
theorem update_ensure (d : Dict α) (key : Bytes) (earlier value : α) :
    (d.ensure key earlier).update key value = d.put key value := by
  unfold put ensure
  split
  · rfl
  · simp [update]

theorem put_put (d : Dict α) (key : Bytes) (earlier value : α) :
    (d.put key earlier).put key value = d.put key value := by
  have hcontains : (d.put key earlier).contains key = true := by
    rw [contains, get?_put, if_pos rfl, Option.isSome_some]
  calc (d.put key earlier).put key value = (d.put key earlier).update key value := by
        rw [put, ensure, if_pos hcontains]
    _ = (d.ensure key earlier).update key value := by
        rw [put, update_update]
    _ = d.put key value := update_ensure d key earlier value

theorem replace_replace (d : Dict α) (key : Bytes) (earlier value : α) :
    (d.replace key earlier).replace key value = d.replace key value := by
  have hremove : (d.replace key earlier).remove key = d.remove key := by
    simp [replace, remove]
  rw [replace, hremove]
  rfl

theorem size_le_size_put (d : Dict α) (key : Bytes) (value : α) :
    d.size ≤ (d.put key value).size := by
  have hensure : d.size ≤ (d.ensure key value).size := by
    unfold ensure
    split
    · exact Nat.le_refl _
    · simp [size]
  simpa [put, update, size] using hensure

/-!
# Entries
-/

theorem mem_entries_remove {d : Dict α} {key : Bytes} {e : Bytes × α}
    (h : e ∈ (d.remove key).entries) : e ∈ d.entries :=
  (List.mem_filter.mp h).left

theorem mem_entries_replace {d : Dict α} {key : Bytes} {value : α} {e : Bytes × α}
    (h : e ∈ (d.replace key value).entries) : e ∈ d.entries ∨ e = (key, value) := by
  rcases List.mem_append.mp h with hold | hnew
  · exact Or.inl (mem_entries_remove hold)
  · exact Or.inr (List.mem_singleton.mp hnew)

theorem mem_entries_update {d : Dict α} {key : Bytes} {value : α} {e : Bytes × α}
    (h : e ∈ (d.update key value).entries) : e ∈ d.entries ∨ e = (key, value) := by
  rcases List.mem_map.mp h with ⟨old, hold, rfl⟩
  split
  · exact Or.inr rfl
  · exact Or.inl hold

theorem mem_entries_ensure {d : Dict α} {key : Bytes} {value : α} {e : Bytes × α}
    (h : e ∈ (d.ensure key value).entries) : e ∈ d.entries ∨ e = (key, value) := by
  unfold ensure at h
  split at h
  · exact Or.inl h
  · rcases List.mem_append.mp h with hold | hnew
    · exact Or.inl hold
    · exact Or.inr (List.mem_singleton.mp hnew)

theorem mem_entries_put {d : Dict α} {key : Bytes} {value : α} {e : Bytes × α}
    (h : e ∈ (d.put key value).entries) : e ∈ d.entries ∨ e = (key, value) := by
  rcases mem_entries_update h with hold | hnew
  · exact mem_entries_ensure hold
  · exact Or.inr hnew

/-!
# Keys
-/

theorem keys_remove (d : Dict α) (key : Bytes) :
    (d.remove key).keys = d.keys.filter (· != key) := by
  simp [keys, remove, List.filter_map, Function.comp_def]

theorem remove_of_notMem {d : Dict α} {key : Bytes} (h : key ∉ d.keys) : d.remove key = d := by
  have hfilter : d.entries.filter (·.1 != key) = d.entries := by
    rw [List.filter_eq_self]
    intro e he
    refine bne_iff_ne.mpr ?_
    intro hkey
    exact h (hkey ▸ List.mem_map_of_mem he)
  rw [remove, hfilter]

theorem ensure_of_mem {d : Dict α} {key : Bytes} (h : key ∈ d.keys) (value : α) :
    d.ensure key value = d := by
  rw [mem_keys_iff] at h
  rw [ensure, if_pos h]

theorem keys_replace (d : Dict α) (key : Bytes) (value : α) :
    (d.replace key value).keys = d.keys.filter (· != key) ++ [key] := by
  rw [← keys_remove]
  simp [keys, replace]

theorem keys_update (d : Dict α) (key : Bytes) (value : α) :
    (d.update key value).keys = d.keys := by
  simp only [keys, update, List.map_map]
  apply List.map_congr_left
  intro e _
  by_cases he : e.1 = key <;> simp [he]

theorem keys_ensure (d : Dict α) (key : Bytes) (value : α) :
    (d.ensure key value).keys = if d.contains key then d.keys else d.keys ++ [key] := by
  unfold ensure
  split <;> simp [keys]

theorem keys_put (d : Dict α) (key : Bytes) (value : α) :
    (d.put key value).keys = if d.contains key then d.keys else d.keys ++ [key] := by
  rw [put, keys_update, keys_ensure]

/-!
# Distinct keys
-/

theorem distinct_empty : (empty : Dict α).Distinct := List.nodup_nil

theorem Distinct.remove {d : Dict α} (h : d.Distinct) (key : Bytes) :
    (d.remove key).Distinct := by
  rw [Distinct, keys_remove]
  exact List.filter_sublist.nodup h

theorem Distinct.replace {d : Dict α} (h : d.Distinct) (key : Bytes) (value : α) :
    (d.replace key value).Distinct := by
  rw [Distinct, keys_replace, List.nodup_append]
  refine ⟨List.filter_sublist.nodup h, by simp, ?_⟩
  intro a ha b hb
  rw [List.mem_singleton] at hb
  simpa [hb] using (List.mem_filter.mp ha).2

theorem Distinct.update {d : Dict α} (h : d.Distinct) (key : Bytes) (value : α) :
    (d.update key value).Distinct := by
  rw [Distinct, keys_update]
  exact h

theorem Distinct.ensure {d : Dict α} (h : d.Distinct) (key : Bytes) (value : α) :
    (d.ensure key value).Distinct := by
  rw [Distinct, keys_ensure]
  split
  · exact h
  · rename_i hmissing
    rw [List.nodup_append]
    refine ⟨h, by simp, ?_⟩
    intro a ha b hb hab
    rw [List.mem_singleton] at hb
    apply hmissing
    rw [← mem_keys_iff, ← hb, ← hab]
    exact ha

theorem Distinct.put {d : Dict α} (h : d.Distinct) (key : Bytes) (value : α) :
    (d.put key value).Distinct :=
  (h.ensure key value).update key value

/-!
# Entries under distinct keys
-/

theorem Distinct.get?_of_mem {d : Dict α} (h : d.Distinct) {e : Bytes × α}
    (he : e ∈ d.entries) :
    d.get? e.1 = some e.2 := by
  rcases d with ⟨entries⟩
  induction entries with
  | nil =>
      cases he
  | cons first rest ih =>
      have hnodup : (first.1 :: rest.map Prod.fst).Nodup := h
      rw [List.nodup_cons] at hnodup
      rw [List.mem_cons] at he
      rcases he with rfl | hrest
      · exact List.lookup_cons_self
      · have hne : e.1 ≠ first.1 := by
          intro hkey
          exact hnodup.left (hkey ▸ List.mem_map_of_mem hrest)
        have hfalse : (e.1 == first.1) = false := beq_eq_false_iff_ne.mpr hne
        have hlookup := ih hnodup.right hrest
        rw [get?] at hlookup ⊢
        rw [List.lookup_cons, hfalse]
        exact hlookup

theorem Distinct.ne_key {before behind : List (Bytes × α)} {key : Bytes} {value : α}
    (h : (⟨before ++ (key, value) :: behind⟩ : Dict α).Distinct) :
    ∀ e ∈ before ++ behind, e.1 ≠ key := by
  have hperm : (before ++ (key, value) :: behind).Perm ((key, value) :: (before ++ behind)) :=
    List.perm_middle
  have hkeys : (key :: (before ++ behind).map Prod.fst).Nodup := (hperm.map Prod.fst).nodup h
  intro e he hkey
  exact (List.nodup_cons.mp hkeys).left (hkey ▸ List.mem_map_of_mem he)

theorem Distinct.exists_entry {d : Dict α} (h : d.Distinct) {key : Bytes} {value : α}
    (hget : d.get? key = some value) :
    ∃ before behind, d = ⟨before ++ (key, value) :: behind⟩ ∧
      ∀ e ∈ before ++ behind, e.1 ≠ key := by
  rcases d with ⟨entries⟩
  rcases List.append_of_mem (mem_entries_of_get? hget) with ⟨before, behind, rfl⟩
  exact ⟨before, behind, rfl, h.ne_key⟩

section

variable {before behind : List (Bytes × α)} {key : Bytes}

theorem replace_entry (h : ∀ e ∈ before ++ behind, e.1 ≠ key) (earlier value : α) :
    (⟨before ++ (key, earlier) :: behind⟩ : Dict α).replace key value =
      ⟨before ++ behind ++ [(key, value)]⟩ := by
  have hfilter : (before ++ behind).filter (·.1 != key) = before ++ behind := by
    rw [List.filter_eq_self]
    intro e he
    exact bne_iff_ne.mpr (h e he)
  rw [List.filter_append] at hfilter
  simp [replace, remove, ← hfilter]

theorem put_entry (h : ∀ e ∈ before ++ behind, e.1 ≠ key) (earlier value : α) :
    (⟨before ++ (key, earlier) :: behind⟩ : Dict α).put key value =
      ⟨before ++ (key, value) :: behind⟩ := by
  have hcontains : (⟨before ++ (key, earlier) :: behind⟩ : Dict α).contains key = true := by
    rw [← mem_keys_iff]
    simp [keys]
  have hmap : (before ++ behind).map (fun e => if e.1 = key then (key, value) else e) =
      before ++ behind := by
    rw [List.map_congr_left, List.map_id]
    intro e he
    exact if_neg (h e he)
  rw [List.map_append] at hmap
  rw [put, ensure, if_pos hcontains, update, List.map_append, List.map_cons, if_pos rfl]
  rcases List.append_inj hmap (List.length_map _) with ⟨hbefore, hbehind⟩
  rw [hbefore, hbehind]

end

theorem foldl_replace_of_distinct {entries : List (Bytes × α)}
    (h : (⟨entries⟩ : Dict α).Distinct) (d : Dict α) :
    entries.foldl (fun d e => d.replace e.1 e.2) d =
      ⟨d.entries.filter (fun e => e.1 ∉ entries.map Prod.fst) ++ entries⟩ := by
  induction entries generalizing d with
  | nil =>
      have hall : d.entries.filter (fun e => e.1 ∉ ([] : List Bytes)) = d.entries := by
        rw [List.filter_eq_self]
        intro e _
        exact decide_eq_true List.not_mem_nil
      rw [List.map_nil, hall, List.append_nil]
      rfl
  | cons first rest ih =>
      have hnodup : (first.1 :: rest.map Prod.fst).Nodup := h
      rw [List.nodup_cons] at hnodup
      have hothers : (d.remove first.1).entries.filter (fun e => e.1 ∉ rest.map Prod.fst) =
          d.entries.filter (fun e => e.1 ∉ (first :: rest).map Prod.fst) := by
        rw [remove, List.filter_filter]
        apply List.filter_congr
        intro e _
        rw [Bool.eq_iff_iff]
        simp [and_comm]
      have hfirst : [first].filter (fun e => e.1 ∉ rest.map Prod.fst) = [first] := by
        rw [List.filter_eq_self]
        intro e he
        rw [List.mem_singleton.mp he]
        exact decide_eq_true hnodup.left
      rw [List.foldl_cons, ih hnodup.right, replace, List.filter_append, hothers, hfirst,
        List.append_assoc, List.singleton_append]

theorem get?_filter_append (d : Dict α) (entries : List (Bytes × α)) (key : Bytes) :
    (⟨d.entries.filter (fun e => e.1 ∉ entries.map Prod.fst) ++ entries⟩ : Dict α).get? key =
      ((⟨entries⟩ : Dict α).get? key).or (d.get? key) := by
  have hentries := (⟨entries⟩ : Dict α).get?_eq_none_iff key
  rw [keys] at hentries
  rw [get?, List.lookup_append, lookup_filter (fun k => k ∉ entries.map Prod.fst)]
  by_cases hkey : key ∈ entries.map Prod.fst
  · rw [if_neg (by simpa using hkey), Option.none_or]
    cases hget : (⟨entries⟩ : Dict α).get? key with
    | none =>
        exact absurd hkey (hentries.mp hget)
    | some v =>
        exact hget
  · rw [if_pos (by simpa using hkey)]
    have hnone := hentries.mpr hkey
    rw [hnone, Option.none_or]
    rw [get?] at hnone
    rw [hnone, Option.or_none]
    rfl

theorem Distinct.put_self {d : Dict α} (h : d.Distinct) {key : Bytes} {value : α}
    (hget : d.get? key = some value) : d.put key value = d := by
  rcases h.exists_entry hget with ⟨before, behind, rfl, hne⟩
  exact put_entry hne value value

theorem Distinct.size_eq {d d' : Dict α} (h : d.Distinct) (h' : d'.Distinct)
    (hkeys : ∀ key, key ∈ d.keys ↔ key ∈ d'.keys) : d.size = d'.size := by
  have hlength := ((List.perm_ext_iff_of_nodup h h').mpr hkeys).length_eq
  rw [keys, keys, List.length_map, List.length_map] at hlength
  exact hlength

/-- In whatever order entries are added, each other key keeps its value. -/
theorem Distinct.get?_of_perm {d d' : Dict α} (hdistinct : d'.Distinct)
    {added : List (Bytes × α)} (hperm : d'.entries.Perm (d.entries ++ added)) {key : Bytes}
    (hkey : ∀ e ∈ added, e.1 ≠ key) : d'.get? key = d.get? key := by
  cases hget : d.get? key with
  | some v =>
      have hmem := List.mem_append_left added (mem_entries_of_get? hget)
      exact hdistinct.get?_of_mem (hperm.mem_iff.mpr hmem)
  | none =>
      rw [get?_eq_none_iff, keys, List.mem_map] at hget ⊢
      intro h
      rcases h with ⟨e, he, hekey⟩
      rcases List.mem_append.mp (hperm.mem_iff.mp he) with hold | hnew
      · exact hget ⟨e, hold, hekey⟩
      · exact hkey e hnew hekey

end Dict
end Stencil
