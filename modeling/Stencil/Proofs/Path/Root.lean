import Stencil.Proofs.Path.Lookup

/-!
# The root of a path

The name before the first separator is the only one that a look-up asks the namespace
itself for.  Paths with the same continuation behind their roots lead to the same value
from namespaces that hold the same under these.
-/

namespace Stencil
namespace Path

def isSeparator (b : UInt8) : Bool :=
  b == Byte.dot || b == Byte.openBracket

def root (path : Path) : Bytes :=
  path.takeWhile (!isSeparator ·)

def behindRoot (path : Path) : Bytes :=
  path.dropWhile (!isSeparator ·)

def rename (x y : Bytes) (path : Path) : Path :=
  if path.root = x then y ++ path.behindRoot else path

theorem root_append_behindRoot (path : Path) : path.root ++ path.behindRoot = path :=
  List.takeWhile_append_dropWhile

theorem not_isSeparator_iff (b : UInt8) :
    (!isSeparator b) = true ↔ b ≠ Byte.dot ∧ b ≠ Byte.openBracket := by
  simp [isSeparator]

theorem SeparatorFree.root_append {name rest : Bytes} (hfree : SeparatorFree name)
    (hrest : AtSeparator rest) :
    root (name ++ rest) = name ∧ behindRoot (name ++ rest) = rest := by
  have hname : ∀ b ∈ name, (!isSeparator b) = true := by
    intro b hb
    exact (not_isSeparator_iff b).mpr (hfree b hb)
  rw [root, behindRoot, List.takeWhile_append_of_pos hname, List.dropWhile_append_of_pos hname]
  cases rest with
  | nil =>
      simp
  | cons b rest =>
      have hb : (!isSeparator b) = false := by
        rcases hrest b rfl with rfl | rfl <;> rfl
      simp [hb]

theorem spells_iff_root (path : Path) (steps : List Step) :
    Spells path steps ↔
      IsName path.root ∧ ∃ rest, Continues path.behindRoot rest ∧
        steps = .name path.root :: rest := by
  constructor
  · rintro ⟨hname, hrest⟩
    rename_i name rest steps
    rcases hname.separatorFree.root_append hrest.atSeparator with ⟨hroot, hbehind⟩
    rw [hroot, hbehind]
    exact ⟨hname, steps, hrest, rfl⟩
  · rintro ⟨hname, rest, hrest, rfl⟩
    have hspells := Spells.start hname hrest
    rw [root_append_behindRoot] at hspells
    exact hspells

theorem lookup_eq_ok_iff_root (ns : Dict Value) (path : Path) (v : Value) :
    lookup ns path = .ok v ↔
      IsName path.root ∧ ∃ w steps, ns.get? path.root = some w ∧
        Continues path.behindRoot steps ∧ w.follow? steps = some v := by
  rw [lookup_eq_ok_iff]
  constructor
  · rintro ⟨steps, hspells, hfollow⟩
    rcases (spells_iff_root path steps).mp hspells with ⟨hname, rest, hrest, rfl⟩
    rcases Option.bind_eq_some_iff.mp hfollow with ⟨w, hw, hv⟩
    exact ⟨hname, w, rest, hw, hrest, hv⟩
  · rintro ⟨hname, w, steps, hw, hrest, hv⟩
    refine ⟨_, (spells_iff_root path _).mpr ⟨hname, steps, hrest, rfl⟩, ?_⟩
    exact Option.bind_eq_some_iff.mpr ⟨w, hw, hv⟩

theorem lookup_eq_ok_congr {ns ns' : Dict Value} {path path' : Path}
    (hname : IsName path.root ↔ IsName path'.root)
    (hbehind : path.behindRoot = path'.behindRoot)
    (hget : ns.get? path.root = ns'.get? path'.root) (v : Value) :
    lookup ns path = .ok v ↔ lookup ns' path' = .ok v := by
  rw [lookup_eq_ok_iff_root, lookup_eq_ok_iff_root, hname, hbehind, hget]

theorem lookup_ne_ok_of_get?_eq_none {ns : Dict Value} {path : Path}
    (hget : ns.get? path.root = none) (v : Value) : lookup ns path ≠ .ok v := by
  intro h
  rcases (lookup_eq_ok_iff_root ns path v).mp h with ⟨_, w, _, hw, _⟩
  rw [hget] at hw
  cases hw

/-- The namespace is asked for the root of a path and nothing else, also
where the look-up fails. -/
theorem lookup_congr_root {ns ns' : Dict Value} {path : Path}
    (hget : ns.get? path.root = ns'.get? path.root) : lookup ns path = lookup ns' path := by
  rw [lookup, lookup, read]
  split
  · rfl
  · rcases exists_name_split path with ⟨name, rest, hsplit, hfree, hrest⟩
    have hroot : path.root = name := by
      rw [hsplit]
      exact (hfree.root_append hrest).left
    have hread : readFrom (.name 0 path) 0 path =
        closeName name 0 (0 + name.length) (readFrom .separator (0 + name.length) rest) := by
      rw [hsplit]
      exact readFrom_name hfree hrest 0
    rw [hread, closeName, Nat.zero_add, Nat.sub_zero, List.take_length]
    rw [hroot] at hget
    cases nameFault? name with
    | some fault =>
        rfl
    | none =>
        simp only [Reading.prepend, find, hget]

/-!
# Renamed paths
-/

theorem atSeparator_behindRoot (path : Path) : AtSeparator path.behindRoot := by
  rcases exists_name_split path with ⟨name, rest, rfl, hfree, hrest⟩
  rw [(hfree.root_append hrest).right]
  exact hrest

theorem rename_self (x : Bytes) (path : Path) : path.rename x x = path := by
  unfold rename
  split
  · rename_i hroot
    have hpath := path.root_append_behindRoot
    rw [hroot] at hpath
    exact hpath
  · rfl

theorem root_rename {x y : Bytes} {path : Path} (hy : SeparatorFree y)
    (hroot : path.root = x) :
    (path.rename x y).root = y ∧ (path.rename x y).behindRoot = path.behindRoot := by
  rw [rename, if_pos hroot]
  exact hy.root_append path.atSeparator_behindRoot

end Path
end Stencil
