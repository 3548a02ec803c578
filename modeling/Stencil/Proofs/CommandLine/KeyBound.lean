import Stencil.Proofs.Bytes.Utf8
import Stencil.Proofs.CommandLine.Defines
import Stencil.Proofs.Path.Segments
import Stencil.Proofs.Path.Success

/-!
# The bound on keys

A define bounds its key as a whole, a path bounds each of its names.  Since no name is
longer than the path that it stands in, a key that a define accepts has no name that is
too long, and what can still go wrong with it is told by a few classes of faults.
-/

namespace Stencil
namespace Path

/-!
# Faults of short paths
-/

theorem length_root_le (path : Path) : path.root.length ≤ path.length :=
  (List.takeWhile_prefix _).length_le

def FitsLength (length : Nat) (fault : PathFault) : Prop :=
  fault ≠ .emptyPath ∧ (fault.toClass = .nameTooLong → nameBound ≤ length)

theorem FitsLength.mono {length more : Nat} {fault : PathFault} (h : FitsLength length fault)
    (hle : length ≤ more) : FitsLength more fault :=
  ⟨h.left, fun hclass => Nat.le_trans (h.right hclass) hle⟩

theorem fitsLength_of_nameFault? {bytes : Bytes} {fault : PathFault}
    (h : nameFault? (root bytes) = some fault) : FitsLength bytes.length fault := by
  unfold nameFault? at h
  split at h
  · cases h
    exact ⟨nofun, nofun⟩
  · split at h
    · rename_i hlong
      cases h
      exact ⟨nofun, fun _ => Nat.le_trans hlong (length_root_le bytes)⟩
    · cases h

theorem BadIndex.fitsLength {bytes : Bytes} {n : Nat} {fault : PathFault}
    (h : BadIndex bytes n fault) (length : Nat) : FitsLength length fault := by
  cases h <;> exact ⟨nofun, nofun⟩

theorem ReadsOn.fitsLength {offset : Nat} {bytes : Bytes} {segments : List Segment}
    {ending : Ending} (h : ReadsOn offset bytes segments ending) {fault : PathFault}
    (hending : ending.fault? = some fault) : FitsLength bytes.length fault := by
  induction h with
  | complete =>
      cases hending
  | stray _ _ =>
      cases hending
      exact ⟨nofun, nofun⟩
  | badName hfault =>
      cases hending
      exact (fitsLength_of_nameFault? hfault).mono (Nat.le_succ _)
  | badIndex hbad =>
      cases hending
      exact hbad.fitsLength _
  | name _ _ _ ih =>
      apply (ih hending).mono
      rw [List.length_cons, List.length_append]
      omega
  | index _ _ ih =>
      apply (ih hending).mono
      rw [List.length_cons, List.length_append, List.length_cons]
      omega

theorem fitsLength_of_read {path : Path} (hpath : path ≠ []) {fault : PathFault}
    (h : path.read.ending.fault? = some fault) : FitsLength path.length fault := by
  have hreads := reads_read hpath
  generalize path.read.ending = ending at h hreads
  generalize path.read.segments = segments at hreads
  cases hreads with
  | badName hfault =>
      cases h
      exact fitsLength_of_nameFault? hfault
  | name _ _ hread =>
      apply (hread.fitsLength h).mono
      rw [List.length_append]
      exact Nat.le_add_left _ _

end Path

def Define.faultClasses : List PathFault.Class :=
  [.emptyName, .invalidIndex, .indexOutOfBounds, .parseError, .notADict, .notAnArray]

theorem Define.notMem_of_mem_faultClasses {c : PathFault.Class} (h : c ∈ faultClasses) :
    c ∉ [.emptyPath, .notFound, .nameTooLong, .allocation] := by
  revert c
  simp [faultClasses]

theorem PathFault.IsMismatch.mem_faultClasses {fault : PathFault}
    (h : fault.IsMismatch .writing) : fault.toClass ∈ Define.faultClasses := by
  cases fault with
  | notADict access name =>
      show PathFault.Class.notADict ∈ Define.faultClasses
      decide
  | notAnArray access name =>
      show PathFault.Class.notAnArray ∈ Define.faultClasses
      decide
  | _ =>
      cases h

theorem assign_error_of_short {ns ns' : Dict Value} {path : Path} {v : Value} {e : Unassigned}
    (hpath : path ≠ []) (hshort : path.length < Path.nameBound)
    (h : assign ns path v = (ns', .error e)) :
    e.error.fault.toClass ∈ Define.faultClasses := by
  have hfails := ((assign_eq_error_iff ns ns' path v e).mp h).right
  rcases hfails.fault with hending | hmismatch
  · rcases Path.fitsLength_of_read hpath hending with ⟨hempty, hlong⟩
    have hsyntactic := path.sound_read.syntactic _ hending
    generalize e.error.fault = fault at hempty hlong hsyntactic
    cases fault with
    | emptyPath =>
        exact absurd rfl hempty
    | nameTooLong excerpt =>
        exact absurd (hlong rfl) (Nat.not_le_of_lt hshort)
    | notFound name =>
        cases hsyntactic
    | notADict access name =>
        cases hsyntactic
    | notAnArray access name =>
        cases hsyntactic
    | noRoom =>
        cases hsyntactic
    | _ =>
        simp [PathFault.toClass, Define.faultClasses]
  · exact hmismatch.mem_faultClasses

namespace Define

theorem parse_eq_ok_iff_text (define : Bytes) (key : Path) (value : Bytes) :
    parse define = .ok (key, value) ↔
      define = key ++ Byte.equals :: value ∧ key ≠ [] ∧ Byte.equals ∉ key ∧
        (∃ text, key = Utf8.encode text) ∧ key.length < 256 ∧ value ≠ [] := by
  rw [parse_eq_ok_iff, Utf8.isValid_iff_exists_encode]
  constructor
  · rintro ⟨hsplits, hkey, hvalue, hshort, htext⟩
    exact ⟨hsplits.split, hkey, hsplits.first, htext, hshort, hvalue⟩
  · rintro ⟨hsplit, hkey, hfirst, htext, hshort, hvalue⟩
    exact ⟨⟨hsplit, hfirst⟩, hkey, hvalue, hshort, htext⟩

theorem apply_of_parse_ok {define value : Bytes} {key : Path}
    (h : parse define = .ok (key, value)) (ns : Dict Value) :
    apply ns define =
      ((assign ns key (.string value)).1,
        (assign ns key (.string value)).2.mapError fun u => .unassigned key u.error) := by
  rw [apply, h]

theorem apply_of_parse_error {define : Bytes} {e : DefineError} (h : parse define = .error e)
    (ns : Dict Value) : apply ns define = (ns, .error e) := by
  rw [apply, h]

end Define

theorem lookup_of_assign {ns ns' : Dict Value} {path : Path} {v : Value}
    (h : assign ns path v = (ns', .ok ())) : lookup ns' path = .ok v := by
  rcases (assign_eq_ok_iff ns ns' path v).mp h with ⟨steps, hspells, _⟩
  exact (hspells.lookup_eq_ok_iff ns' v).mpr (hspells.follow?_assign h)

/-!
# The theorem
-/

/-- A define is read exactly when it is a key and a value around its first equals sign,
both not empty and the key a text of fewer than 256 bytes.  What it then stores is what a
look-up of the key finds.  A define that is not read leaves the namespace as it is, and
one that is refused later is refused for one of six classes of faults. -/
theorem define_stores_or_fails_in_class (ns : Dict Value) (define : Bytes) :
    (∀ key value, Define.parse define = .ok (key, value) ↔
      define = key ++ Byte.equals :: value ∧ key ≠ [] ∧ Byte.equals ∉ key ∧
        (∃ text, key = Utf8.encode text) ∧ key.length < 256 ∧ value ≠ []) ∧
    ((∃ key value ns', Define.parse define = .ok (key, value) ∧
        Define.apply ns define = (ns', .ok ()) ∧ lookup ns' key = .ok (.string value)) ∨
      (∃ e, Define.parse define = .error e ∧ Define.apply ns define = (ns, .error e)) ∨
      ∃ key value ns' e, Define.parse define = .ok (key, value) ∧
        Define.apply ns define = (ns', .error (.unassigned key e)) ∧
        e.fault.toClass ∈ Define.faultClasses ∧
        e.fault.toClass ∉ [.emptyPath, .notFound, .nameTooLong, .allocation]) := by
  refine ⟨Define.parse_eq_ok_iff_text define, ?_⟩
  cases hparse : Define.parse define with
  | error e =>
      exact Or.inr (Or.inl ⟨e, rfl, Define.apply_of_parse_error hparse ns⟩)
  | ok parts =>
      rcases parts with ⟨key, value⟩
      have happly := Define.apply_of_parse_ok hparse ns
      rcases hassign : assign ns key (.string value) with ⟨ns', e | _⟩
      · right
        right
        rw [hassign] at happly
        rcases (Define.parse_eq_ok_iff_text define key value).mp hparse with
          ⟨_, hkey, _, _, hshort, _⟩
        have hclass := assign_error_of_short hkey hshort hassign
        refine ⟨key, value, ns', e.error, rfl, happly, hclass, ?_⟩
        exact Define.notMem_of_mem_faultClasses hclass
      · left
        rw [hassign] at happly
        exact ⟨key, value, ns', rfl, happly, lookup_of_assign hassign⟩

end Stencil
