import Mathlib.Data.List.Forall2
import Stencil.Proofs.Document.Numbers
import Stencil.Proofs.Path.Lookup

/-!
# What documents become

A converted document has the shape of the document: elements and members stay where they
were, so that a path leads to the same place in both.  Only truth values cannot be told
from numbers afterwards.
-/

namespace Stencil

variable {α β : Type} {R : α → β → Prop}

/-!
# Lists and dictionaries side by side
-/

theorem rel_getElem? {as : List α} {bs : List β} (h : List.Forall₂ R as bs) (i : Nat) :
    Option.Rel R as[i]? bs[i]? := by
  induction h generalizing i with
  | nil =>
      exact Option.Rel.none
  | cons hab _ ih =>
      cases i with
      | zero =>
          exact Option.Rel.some hab
      | succ i =>
          exact ih i

namespace Dict

def Paired (R : α → β → Prop) (a : Bytes × α) (b : Bytes × β) : Prop :=
  a.1 = b.1 ∧ R a.2 b.2

theorem keys_eq_of_paired {as : List (Bytes × α)} {bs : List (Bytes × β)}
    (h : List.Forall₂ (Paired R) as bs) : (⟨as⟩ : Dict α).keys = (⟨bs⟩ : Dict β).keys := by
  rw [keys, keys]
  induction h with
  | nil =>
      rfl
  | cons hab _ ih =>
      rw [List.map_cons, List.map_cons, hab.left, ih]

theorem rel_get? {as : List (Bytes × α)} {bs : List (Bytes × β)}
    (h : List.Forall₂ (Paired R) as bs) (key : Bytes)
    : Option.Rel R ((⟨as⟩ : Dict α).get? key) ((⟨bs⟩ : Dict β).get? key) := by
  rw [get?, get?]
  induction h with
  | nil =>
      exact Option.Rel.none
  | @cons a b _ _ hab _ ih =>
      rw [List.lookup_cons, List.lookup_cons, hab.left]
      cases key == b.1 with
      | true =>
          exact Option.Rel.some hab.right
      | false =>
          exact ih

end Dict

namespace Document

/-!
# Parts of a conversion
-/

def ConvertsTo (j : Document) (v : Value) : Prop :=
  j.toValue = .ok v

theorem convertsTo_of_toItems {items : List Document} {vs : List Value} {index : Nat}
    (h : toItems index items = .ok vs) : List.Forall₂ ConvertsTo items vs := by
  induction items generalizing index vs with
  | nil =>
      cases h
      exact List.Forall₂.nil
  | cons item rest ih =>
      rw [toItems, bind_eq_ok_iff] at h
      rcases h with ⟨v, hv, h⟩
      split at h
      · cases h
      · rcases (bind_eq_ok_iff _ _ _).mp h with ⟨rest', hrest, h⟩
        cases h
        exact List.Forall₂.cons hv (ih hrest)

theorem toDict_eq_ok_iff (members : List (Bytes × Document)) (d d' : Dict Value) :
    toDict d members = .ok d' ↔
      ∃ entries, List.Forall₂ (Dict.Paired ConvertsTo) members entries ∧
        entries.foldl (fun d e => d.replace e.1 e.2) d = d' := by
  induction members generalizing d with
  | nil =>
      constructor
      · intro h
        cases h
        exact ⟨[], List.Forall₂.nil, rfl⟩
      · intro h
        rcases h with ⟨entries, hentries, hstored⟩
        cases hentries
        rw [← hstored]
        rfl
  | cons member rest ih =>
      rw [toDict, bind_eq_ok_iff]
      constructor
      · intro h
        rcases h with ⟨v, hv, hrest⟩
        rcases (ih _).mp hrest with ⟨entries, hentries, hstored⟩
        exact ⟨(member.1, v) :: entries, List.Forall₂.cons ⟨rfl, hv⟩ hentries, hstored⟩
      · intro h
        rcases h with ⟨entries, hentries, hstored⟩
        cases hentries with
        | @cons _ entry _ others hpaired hothers =>
            rcases entry with ⟨key, v⟩
            rcases hpaired with ⟨rfl, hv⟩
            exact ⟨v, hv, (ih _).mpr ⟨others, hothers, hstored⟩⟩

theorem exists_of_array_toValue {items : List Document} {v : Value}
    (h : (array items).toValue = .ok v) :
    ∃ vs, v = .array vs ∧ List.Forall₂ ConvertsTo items vs := by
  rw [toValue, map_eq_ok_iff] at h
  rcases h with ⟨vs, hvs, rfl⟩
  exact ⟨vs, rfl, convertsTo_of_toItems hvs⟩

theorem exists_of_object_toValue {members : Dict Document} (hdistinct : members.Distinct)
    {v : Value} (h : (object members).toValue = .ok v) :
    ∃ d, v = .dict d ∧ List.Forall₂ (Dict.Paired ConvertsTo) members.entries d.entries := by
  rw [toValue, map_eq_ok_iff] at h
  rcases h with ⟨d, hd, rfl⟩
  rcases (toDict_eq_ok_iff _ _ _).mp hd with ⟨entries, hentries, hstored⟩
  have hkeys : members.keys = (⟨entries⟩ : Dict Value).keys := Dict.keys_eq_of_paired hentries
  rw [Dict.Distinct, hkeys] at hdistinct
  rw [Dict.foldl_replace_of_distinct hdistinct] at hstored
  refine ⟨d, rfl, ?_⟩
  rw [← hstored]
  exact hentries

/-!
# Shape
-/

/-- A value of the shape of a document. -/
inductive Corresponds : Document → Value → Prop where
  | null : Corresponds .null .none
  | bool (b : Bool) : Corresponds (.bool b) (.int (if b then 1 else 0))
  | integer (n : Int64) : Corresponds (.number (.integer n.toInt)) (.int n)
  | string (bytes : Bytes) : Corresponds (.string bytes) (.string bytes)
  | array {items : List Document} {vs : List Value} :
      items.length = vs.length →
      (∀ (i : Nat) j v, items[i]? = some j → vs[i]? = some v → Corresponds j v) →
      Corresponds (.array items) (.array vs)
  | object {members : Dict Document} {d : Dict Value} :
      members.keys = d.keys →
      (∀ key j v, members.get? key = some j → d.get? key = some v → Corresponds j v) →
      Corresponds (.object members) (.dict d)

theorem WellFormed.corresponds {j : Document} (h : j.WellFormed) {v : Value}
    (hv : j.toValue = .ok v) : Corresponds j v := by
  induction h generalizing v with
  | null =>
      cases hv
      exact Corresponds.null
  | bool b =>
      cases hv
      exact Corresponds.bool b
  | number n =>
      rw [toValue, numberToValue] at hv
      split at hv
      · rename_i i hi
        cases hv
        rw [(Number.toInt64?_eq_some_iff n i).mp hi]
        exact Corresponds.integer i
      · cases hv
  | string bytes =>
      cases hv
      exact Corresponds.string bytes
  | array _ _ ih =>
      rcases exists_of_array_toValue hv with ⟨vs, rfl, hvs⟩
      apply Corresponds.array hvs.length_eq
      intro i j v hj hv
      have hrel := rel_getElem? hvs i
      rw [hj, hv, Option.rel_some_some] at hrel
      exact ih j (List.mem_of_getElem? hj) hrel
  | object hdistinct _ ih =>
      rcases exists_of_object_toValue hdistinct hv with ⟨d, rfl, hd⟩
      apply Corresponds.object (Dict.keys_eq_of_paired hd)
      intro key j v hj hv
      have hrel := Dict.rel_get? hd key
      rw [hj, hv, Option.rel_some_some] at hrel
      exact ih (key, j) (Dict.mem_entries_of_get? hj) hrel

/-!
# Places
-/

def member? : Document → Step → Option Document
  | .object members, .name bytes => members.get? bytes
  | .array items, .index i => items[i]?
  | _, _ => .none

def follow? (j : Document) : List Step → Option Document
  | [] => some j
  | step :: rest => (j.member? step).bind (follow? · rest)

theorem WellFormed.of_member {j part : Document} (h : j.WellFormed) {step : Step}
    (hpart : j.member? step = some part) : part.WellFormed := by
  cases h with
  | array _ hitems =>
      cases step with
      | name name =>
          cases hpart
      | index i =>
          exact hitems part (List.mem_of_getElem? hpart)
  | object _ hmembers =>
      cases step with
      | name name =>
          exact hmembers (name, part) (Dict.mem_entries_of_get? hpart)
      | index i =>
          cases hpart
  | _ =>
      cases hpart

theorem WellFormed.rel_member? {j : Document} (h : j.WellFormed) {v : Value}
    (hv : j.toValue = .ok v) (step : Step) :
    Option.Rel ConvertsTo (j.member? step) (v.member? step) := by
  cases h with
  | array _ _ =>
      rcases exists_of_array_toValue hv with ⟨vs, rfl, hvs⟩
      cases step with
      | name name =>
          exact Option.Rel.none
      | index i =>
          exact rel_getElem? hvs i
  | object hdistinct _ =>
      rcases exists_of_object_toValue hdistinct hv with ⟨d, rfl, hd⟩
      cases step with
      | name name =>
          exact Dict.rel_get? hd name
      | index i =>
          exact Option.Rel.none
  | number n =>
      rw [toValue, numberToValue] at hv
      split at hv
      · cases hv
        exact Option.Rel.none
      · cases hv
  | _ =>
      cases hv
      exact Option.Rel.none

theorem WellFormed.rel_follow? {j : Document} (h : j.WellFormed) {v : Value}
    (hv : j.toValue = .ok v) (steps : List Step) :
    Option.Rel ConvertsTo (j.follow? steps) (v.follow? steps) := by
  induction steps generalizing j v with
  | nil =>
      exact Option.Rel.some hv
  | cons step rest ih =>
      have hmember := h.rel_member? hv step
      rw [follow?, Value.follow?_cons]
      cases hpart : j.member? step with
      | none =>
          rw [hpart] at hmember
          generalize v.member? step = found at hmember
          cases hmember
          exact Option.Rel.none
      | some part =>
          rw [hpart] at hmember
          generalize v.member? step = found at hmember
          cases hmember with
          | some hw =>
              exact ih (h.of_member hpart) hw

theorem WellFormed.lookup_eq_ok_iff {j : Document} (h : j.WellFormed) {d : Dict Value}
    (hd : j.toValue = .ok (.dict d)) (path : Path) (w : Value) :
    lookup d path = .ok w ↔
      ∃ steps part, Path.Spells path steps ∧ j.follow? steps = some part ∧
        part.toValue = .ok w := by
  rw [Stencil.lookup_eq_ok_iff]
  apply exists_congr
  intro steps
  have hrel := h.rel_follow? hd steps
  constructor
  · intro hfound
    rcases hfound with ⟨hspells, hw⟩
    rw [hw] at hrel
    generalize j.follow? steps = reached at hrel ⊢
    cases hrel with
    | some hpart =>
        exact ⟨_, hspells, rfl, hpart⟩
  · intro hfound
    rcases hfound with ⟨part, hspells, hpart, hw⟩
    rw [hpart] at hrel
    generalize (Value.dict d).follow? steps = reached at hrel ⊢
    cases hrel with
    | some hfollow =>
        rw [ConvertsTo, hw] at hfollow
        cases hfollow
        exact ⟨hspells, rfl⟩

/-!
# Documents with the same value
-/

mutual

def numeric : Document → Document
  | .bool b => .number (.integer (if b then 1 else 0))
  | .array items => .array (numericItems items)
  | .object ⟨members⟩ => .object ⟨numericMembers members⟩
  | .null => .null
  | .number n => .number n
  | .string bytes => .string bytes

def numericItems : List Document → List Document
  | [] => []
  | item :: rest => numeric item :: numericItems rest

def numericMembers : List (Bytes × Document) → List (Bytes × Document)
  | [] => []
  | (key, member) :: rest => (key, numeric member) :: numericMembers rest

end

end Document

mutual

def Value.toDocument : Value → Document
  | .none => .null
  | .int n => .number (.integer n.toInt)
  | .string bytes => .string bytes
  | .array items => .array (itemsToDocuments items)
  | .dict ⟨entries⟩ => .object ⟨entriesToMembers entries⟩

def Value.itemsToDocuments : List Value → List Document
  | [] => []
  | item :: rest => toDocument item :: itemsToDocuments rest

def Value.entriesToMembers : List (Bytes × Value) → List (Bytes × Document)
  | [] => []
  | (key, v) :: rest => (key, toDocument v) :: entriesToMembers rest

end

namespace Document

theorem numericItems_eq {items : List Document} {vs : List Value}
    (h : List.Forall₂ (fun j v => j.numeric = v.toDocument) items vs) :
    numericItems items = Value.itemsToDocuments vs := by
  induction h with
  | nil =>
      rfl
  | cons hjv _ ih =>
      rw [numericItems, Value.itemsToDocuments, hjv, ih]

theorem numericMembers_eq {members : List (Bytes × Document)} {entries : List (Bytes × Value)}
    (h : List.Forall₂ (Dict.Paired fun j v => j.numeric = v.toDocument) members entries) :
    numericMembers members = Value.entriesToMembers entries := by
  induction h with
  | nil =>
      rfl
  | cons hpaired _ ih =>
      rw [numericMembers, Value.entriesToMembers, hpaired.left, hpaired.right, ih]

theorem WellFormed.numeric_eq {j : Document} (h : j.WellFormed) {v : Value}
    (hv : j.toValue = .ok v) : j.numeric = v.toDocument := by
  induction h generalizing v with
  | null =>
      cases hv
      rfl
  | bool b =>
      cases hv
      cases b <;> rfl
  | number n =>
      rw [toValue, numberToValue] at hv
      split at hv
      · rename_i i hi
        cases hv
        rw [(Number.toInt64?_eq_some_iff n i).mp hi]
        rfl
      · cases hv
  | string bytes =>
      cases hv
      rfl
  | array _ _ ih =>
      rcases exists_of_array_toValue hv with ⟨vs, rfl, hvs⟩
      have hall := (List.forall₂_and_left _ _).mpr ⟨ih, hvs⟩
      rw [numeric, Value.toDocument,
        numericItems_eq (hall.imp fun j v hjv => hjv.left hjv.right)]
  | object hdistinct _ ih =>
      rcases exists_of_object_toValue hdistinct hv with ⟨d, rfl, hd⟩
      have hall := (List.forall₂_and_left _ _).mpr ⟨ih, hd⟩
      rw [numeric, Value.toDocument, numericMembers_eq (hall.imp fun m e hme =>
        ⟨hme.right.left, hme.left hme.right.right⟩)]

/-!
# The theorem
-/

/-- A document without repeated keys converts exactly if all of its numbers are integers
of 64 signed bits, and otherwise fails with the first that is not.  Its value has the same
shape and the same parts at the end of every path, and determines the document up to
`true` for one and `false` for zero. -/
theorem conversion_preserves_structure {j : Document} (h : j.WellFormed) :
    ((∃ v, j.toValue = .ok v) ↔ ∀ n ∈ j.numbers, n.Representable) ∧
      (∀ e, j.toValue = .error e ↔
        ∃ front n back, j.numbers = front ++ n :: back ∧ (∀ m ∈ front, m.Representable) ∧
          ¬ n.Representable ∧ e = .unrepresentable n) ∧
      (∀ v, j.toValue = .ok v → Corresponds j v) ∧
      (∀ d, j.toValue = .ok (.dict d) → ∀ path w,
        lookup d path = .ok w ↔
          ∃ steps part, Path.Spells path steps ∧ j.follow? steps = some part ∧
            part.toValue = .ok w) ∧
      (∀ (other : Document) v, other.WellFormed → j.toValue = .ok v → other.toValue = .ok v →
        j.numeric = other.numeric) := by
  refine ⟨h.toValue_settledBy.exists_ok_iff, h.toValue_settledBy.eq_error_iff, ?_, ?_, ?_⟩
  · intro v hv
    exact h.corresponds hv
  · intro d hd path w
    exact h.lookup_eq_ok_iff hd path w
  · intro other v hother hv hv'
    rw [h.numeric_eq hv, hother.numeric_eq hv']

def overflowing : Document :=
  .object
    ⟨[(Bytes.ofText "a", .array [.bool true, .array [.number (.integer 9223372036854775808)]]),
      (Bytes.ofText "b", .number (.integer 18446744073709551615))]⟩

theorem wellFormed_overflowing : overflowing.WellFormed := by
  apply WellFormed.object
  · change List.Nodup [Bytes.ofText "a", Bytes.ofText "b"]
    decide
  · rw [List.forall_mem_cons, List.forall_mem_singleton]
    refine ⟨WellFormed.array (by decide) ?_, WellFormed.number _⟩
    rw [List.forall_mem_cons, List.forall_mem_singleton]
    refine ⟨WellFormed.bool true, WellFormed.array (by decide) ?_⟩
    exact List.forall_mem_singleton.mpr (WellFormed.number _)

/-- Of two integers that are too large, the conversion names the one in the inner array,
which comes first. -/
theorem conversion_preserves_structure_up_to_overflow :
    overflowing.WellFormed ∧
      overflowing.toValue = .error (.unrepresentable (.integer 9223372036854775808)) := by
  refine ⟨wellFormed_overflowing, ?_⟩
  apply ((conversion_preserves_structure wellFormed_overflowing).right.left _).mpr
  refine ⟨[], _, _, rfl, nofun, ?_, rfl⟩
  intro h
  rcases h with ⟨i, hi, _, hupper⟩
  cases hi
  exact absurd hupper (by decide)

end Document
end Stencil
