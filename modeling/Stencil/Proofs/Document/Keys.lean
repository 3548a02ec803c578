import Mathlib.Data.Option.Basic
import Stencil.Dict.Lemmas
import Stencil.Standard

/-!
# Keys of data files

What loading relies on of the formats is that no document repeats a key of an object.  In
the standard formats a text may do so, but they put the members of an object together one
by one, and a repeated key changes the value of an earlier member.
-/

namespace Stencil
namespace Document

inductive Unambiguous : Document → Prop where
  | null : Unambiguous .null
  | bool (b : Bool) : Unambiguous (.bool b)
  | number (n : Number) : Unambiguous (.number n)
  | string (bytes : Bytes) : Unambiguous (.string bytes)
  | array {items : List Document} : (∀ j ∈ items, Unambiguous j) → Unambiguous (.array items)
  | object {members : Dict Document} :
      members.Distinct → (∀ m ∈ members.entries, Unambiguous m.2) →
      Unambiguous (.object members)

namespace Unambiguous

theorem distinct {members : Dict Document} (h : (Document.object members).Unambiguous) :
    members.Distinct := by
  cases h with
  | object hdistinct _ =>
      exact hdistinct

theorem emptyArray : (Document.array []).Unambiguous :=
  Unambiguous.array nofun

theorem emptyObject : (Document.object .empty).Unambiguous :=
  Unambiguous.object Dict.distinct_empty nofun

theorem put {members : Dict Document} (h : (Document.object members).Unambiguous) (key : Bytes)
    {j : Document} (hj : j.Unambiguous) :
    (Document.object (members.put key j)).Unambiguous := by
  cases h with
  | object hdistinct hmembers =>
      apply Unambiguous.object (hdistinct.put key j)
      intro m hm
      rcases Dict.mem_entries_put hm with hold | rfl
      · exact hmembers m hold
      · exact hj

end Unambiguous
end Document

structure Formats.Unambiguous (formats : Formats) : Prop where
  json : ∀ {text j}, formats.json text = some j → j.Unambiguous
  yaml : ∀ {text j}, formats.yaml text = some j → j.Unambiguous

theorem DataFile.unambiguous_of_read [formats : Formats] (hformats : formats.Unambiguous)
    {file : DataFile} {j : Document} (h : file.read = .ok j) : j.Unambiguous := by
  rw [DataFile.read] at h
  split at h
  · cases h
  · split at h
    · cases h
    · split at h
      · rename_i content _ _ document hdocument
        cases h
        split at hdocument
        · exact hformats.yaml hdocument
        · exact hformats.json hdocument
      · cases h

/-!
# JSON
-/

namespace Json

/-- What is read with some fuel: values, the elements of arrays, and objects
begun with some members. -/
structure ReadsUnambiguous (fuel : Nat) : Prop where
  value : ∀ {depth bytes r}, Json.value fuel depth bytes = some r → r.1.Unambiguous
  items : ∀ {depth bytes r}, Json.items fuel depth bytes = some r → ∀ j ∈ r.1, j.Unambiguous
  members : ∀ {depth object bytes r}, (Document.object object).Unambiguous →
    Json.members fuel depth object bytes = some r → (Document.object r.1).Unambiguous

namespace ReadsUnambiguous

variable {fuel depth : Nat} {bytes : Bytes}

theorem value_succ (ih : ReadsUnambiguous fuel) {r : Document × Bytes}
    (h : Json.value (fuel + 1) depth bytes = some r) : r.1.Unambiguous := by
  cases bytes with
  | nil =>
      cases h
  | cons b rest =>
      rw [Json.value] at h
      split at h
      · rcases Option.map_eq_some_iff.mp h with ⟨read, _, rfl⟩
        exact Document.Unambiguous.string _
      split at h
      · split at h
        · cases h
        · split at h
          · cases h
          · split at h
            · cases h
              exact Document.Unambiguous.emptyArray
            · rcases Option.map_eq_some_iff.mp h with ⟨read, hread, rfl⟩
              exact Document.Unambiguous.array (ih.items hread)
      split at h
      · split at h
        · cases h
        · split at h
          · cases h
          · split at h
            · cases h
              exact Document.Unambiguous.emptyObject
            · rcases Option.map_eq_some_iff.mp h with ⟨read, hread, rfl⟩
              exact ih.members Document.Unambiguous.emptyObject hread
      split at h
      · rcases Option.bind_eq_some_iff.mp h with ⟨numeral, _, h⟩
        rcases Option.bind_eq_some_iff.mp h with ⟨number, _, h⟩
        cases h
        exact Document.Unambiguous.number number
      split at h
      · rcases Option.map_eq_some_iff.mp h with ⟨read, _, rfl⟩
        exact Document.Unambiguous.null
      split at h
      · rcases Option.map_eq_some_iff.mp h with ⟨read, _, rfl⟩
        exact Document.Unambiguous.bool true
      split at h
      · rcases Option.map_eq_some_iff.mp h with ⟨read, _, rfl⟩
        exact Document.Unambiguous.bool false
      · cases h

theorem items_succ (ih : ReadsUnambiguous fuel) {r : List Document × Bytes}
    (h : Json.items (fuel + 1) depth bytes = some r) : ∀ j ∈ r.1, j.Unambiguous := by
  rw [Json.items] at h
  rcases Option.bind_eq_some_iff.mp h with ⟨item, hitem, h⟩
  have hfirst := ih.value hitem
  dsimp only at h
  split at h
  · cases h
  · split at h
    · cases h
      exact List.forall_mem_singleton.mpr hfirst
    · split at h
      · rcases Option.bind_eq_some_iff.mp h with ⟨more, hmore, h⟩
        cases h
        exact List.forall_mem_cons.mpr ⟨hfirst, ih.items hmore⟩
      · cases h

theorem members_succ (ih : ReadsUnambiguous fuel) {object : Dict Document}
    (hobject : (Document.object object).Unambiguous) {r : Dict Document × Bytes}
    (h : Json.members (fuel + 1) depth object bytes = some r) :
    (Document.object r.1).Unambiguous := by
  rw [Json.members] at h
  rcases Option.bind_eq_some_iff.mp h with ⟨quoted, _, h⟩
  rcases Option.bind_eq_some_iff.mp h with ⟨key, _, h⟩
  rcases Option.bind_eq_some_iff.mp h with ⟨behind, _, h⟩
  rcases Option.bind_eq_some_iff.mp h with ⟨member, hmember, h⟩
  have hput := hobject.put key.1 (ih.value hmember)
  dsimp only at h
  split at h
  · cases h
  · split at h
    · cases h
      exact hput
    · split at h
      · exact ih.members hput h
      · cases h

end ReadsUnambiguous

theorem readsUnambiguous (fuel : Nat) : ReadsUnambiguous fuel := by
  induction fuel with
  | zero =>
      constructor
      · intro _ _ _ h
        cases h
      · intro _ _ _ h
        cases h
      · intro _ _ _ _ _ h
        cases h
  | succ fuel ih =>
      exact ⟨ih.value_succ, ih.items_succ, fun hobject h => ih.members_succ hobject h⟩

theorem unambiguous_of_parse {bytes : Bytes} {j : Document} (h : parse bytes = some j) :
    j.Unambiguous := by
  rw [parse] at h
  split at h
  · cases h
  · rcases Option.bind_eq_some_iff.mp h with ⟨read, hread, h⟩
    dsimp only at h
    split at h
    · cases h
      exact (readsUnambiguous _).value hread
    · cases h

end Json

/-!
# YAML
-/

namespace Yaml

theorem unambiguous_of_integerDocument {value : Int} {j : Document}
    (h : Plain.integerDocument value = some j) : j.Unambiguous := by
  rw [Plain.integerDocument] at h
  split at h
  · cases h
    exact Document.Unambiguous.number _
  · cases h

theorem unambiguous_of_doubleDocument {text : List Char} {j : Document}
    (h : Plain.doubleDocument? text = some j) : j.Unambiguous := by
  rw [Plain.doubleDocument?] at h
  split at h
  · cases h
    exact Document.Unambiguous.null
  · rcases Option.map_eq_some_iff.mp h with ⟨x, _, rfl⟩
    exact Document.Unambiguous.number _

theorem unambiguous_of_resolve {text : List Char} {j : Document}
    (h : Plain.resolve text = some j) : j.Unambiguous := by
  rw [Plain.resolve] at h
  split at h
  · cases h
    exact Document.Unambiguous.null
  · split at h
    · cases h
      exact Document.Unambiguous.bool _
    · exact unambiguous_of_integerDocument h
    · dsimp only at h
      split at h
      · cases h
        exact Document.Unambiguous.string _
      · cases h
        cases hdouble : Plain.doubleDocument? text with
        | none =>
            exact Document.Unambiguous.string _
        | some j =>
            exact unambiguous_of_doubleDocument hdouble

theorem unambiguous_of_resolveScalar {tag : Option Bytes} {plain : Bool} {text : List Char}
    {j : Document} (h : resolveScalar tag plain text = some j) : j.Unambiguous := by
  have hform : (if plain = true then Plain.resolve text
      else some (Document.string (Utf8.encode text))) =
      some j → j.Unambiguous := by
    intro hform
    split at hform
    · exact unambiguous_of_resolve hform
    · cases hform
      exact Document.Unambiguous.string _
  unfold resolveScalar at h
  dsimp only at h
  split at h
  · exact hform h
  split at h
  · cases h
  split at h
  · exact hform h
  split at h
  · rcases Option.map_eq_some_iff.mp h with ⟨b, _, rfl⟩
    exact Document.Unambiguous.bool b
  split at h
  · rcases Option.bind_eq_some_iff.mp h with ⟨value, _, hvalue⟩
    exact unambiguous_of_integerDocument hvalue
  split at h
  · exact unambiguous_of_doubleDocument h
  split at h
  · split at h
    · cases h
      exact Document.Unambiguous.null
    · cases h
  · cases h
    exact Document.Unambiguous.string _

def ResolvesUnambiguous (resolve : Node → Nat → Option (Document × Nat)) : Prop :=
  ∀ node jumps r, resolve node jumps = some r → r.1.Unambiguous

theorem ResolvesUnambiguous.items {resolve : Node → Nat → Option (Document × Nat)}
    (hresolve : ResolvesUnambiguous resolve) {nodes : List Node} {jumps : Nat}
    {r : List Document × Nat} (h : resolveItems resolve nodes jumps = some r) :
    ∀ j ∈ r.1, j.Unambiguous := by
  induction nodes generalizing jumps r with
  | nil =>
      cases h
      nofun
  | cons node rest ih =>
      rw [resolveItems] at h
      rcases Option.bind_eq_some_iff.mp h with ⟨first, hfirst, h⟩
      rcases Option.bind_eq_some_iff.mp h with ⟨others, hothers, h⟩
      cases h
      exact List.forall_mem_cons.mpr ⟨hresolve node jumps first hfirst, ih hothers⟩

theorem ResolvesUnambiguous.pairs {resolve : Node → Nat → Option (Document × Nat)}
    (hresolve : ResolvesUnambiguous resolve) {r : Reader} {object : Dict Document}
    (hobject : (Document.object object).Unambiguous) {pairs : List (Node × Node)} {jumps : Nat}
    {resolved : Dict Document × Nat}
    (h : resolvePairs r resolve object pairs jumps = some resolved) :
    (Document.object resolved.1).Unambiguous := by
  induction pairs generalizing object jumps with
  | nil =>
      cases h
      exact hobject
  | cons pair rest ih =>
      rw [resolvePairs] at h
      rcases Option.bind_eq_some_iff.mp h with ⟨key, _, h⟩
      rcases Option.bind_eq_some_iff.mp h with ⟨member, hmember, h⟩
      exact ih (hobject.put key.1 (hresolve _ _ _ hmember)) h

theorem resolveNode_zero (r : Reader) (node : Node) (jumps : Nat) :
    resolveNode r 0 node jumps =
      (dereference r node jumps).bind fun
        | (.scalar tag plain text, left) => (resolveScalar tag plain text).map (·, left)
        | _ => none := by
  delta resolveNode
  change Option.bind (dereference r node jumps) _ = _
  congr 1
  funext t
  rcases t with ⟨target, left⟩
  cases target <;> rfl

theorem resolveNode_succ (r : Reader) (depth : Nat) (node : Node) (jumps : Nat) :
    resolveNode r (depth + 1) node jumps =
      (dereference r node jumps).bind fun
        | (.scalar tag plain text, left) => (resolveScalar tag plain text).map (·, left)
        | (.sequence tag items, left) =>
          if tag.any Tag.isForeign then none
          else (resolveItems (resolveNode r depth) items left).map fun x => (.array x.1, x.2)
        | (.mapping tag pairs, left) =>
          if tag.any Tag.isForeign then none
          else (resolvePairs r (resolveNode r depth) .empty pairs left).map fun x =>
            (.object x.1, x.2)
        | (.alias _, _) => none := by
  delta resolveNode
  change Option.bind (dereference r node jumps) _ = _
  congr 1
  funext t
  rcases t with ⟨target, left⟩
  cases target <;> rfl

theorem resolvesUnambiguous (r : Reader) (depth : Nat) :
    ResolvesUnambiguous (resolveNode r depth) := by
  induction depth with
  | zero =>
      intro node jumps resolved h
      rw [resolveNode_zero] at h
      rcases Option.bind_eq_some_iff.mp h with ⟨⟨target, left⟩, _, h⟩
      cases target with
      | scalar tag plain text =>
          rcases Option.map_eq_some_iff.mp h with ⟨j, hj, rfl⟩
          exact unambiguous_of_resolveScalar hj
      | _ =>
          cases h
  | succ depth ih =>
      intro node jumps resolved h
      rw [resolveNode_succ] at h
      rcases Option.bind_eq_some_iff.mp h with ⟨⟨target, left⟩, _, h⟩
      cases target with
      | scalar tag plain text =>
          rcases Option.map_eq_some_iff.mp h with ⟨j, hj, rfl⟩
          exact unambiguous_of_resolveScalar hj
      | sequence tag items =>
          dsimp only at h
          split at h
          · cases h
          · rcases Option.map_eq_some_iff.mp h with ⟨items, hitems, rfl⟩
            exact Document.Unambiguous.array (ih.items hitems)
      | mapping tag pairs =>
          dsimp only at h
          split at h
          · cases h
          · rcases Option.map_eq_some_iff.mp h with ⟨object, hobject, rfl⟩
            exact ih.pairs Document.Unambiguous.emptyObject hobject
      | _ =>
          cases h

theorem unambiguous_of_parse {bytes : Bytes} {j : Document} (h : parse bytes = some j) :
    j.Unambiguous := by
  rw [parse] at h
  split at h
  · cases h
  · rcases Option.bind_eq_some_iff.mp h with ⟨tokens, _, h⟩
    rcases Option.bind_eq_some_iff.mp h with ⟨root, _, h⟩
    rcases Option.bind_eq_some_iff.mp h with ⟨resolved, hresolved, h⟩
    cases h
    exact resolvesUnambiguous _ _ _ _ _ hresolved

end Yaml

theorem Formats.unambiguous_standard : Formats.standard.Unambiguous :=
  ⟨Json.unambiguous_of_parse, Yaml.unambiguous_of_parse⟩

end Stencil
