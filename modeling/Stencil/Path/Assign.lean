import Stencil.Path.Reading
import Stencil.Value.Access

/-!
# Assigning to a path

Stores a value at a path and creates the containers that are missing on the way: a
dictionary before a name, an array before an index, with `none` in the places below it.
The final entry of a dictionary moves to its end, the entries passed on the way stay where
they are.  A failure leaves the containers created before it, and hands the value back.
-/

namespace Stencil
namespace Path

/-- The slot after an attempt to store through it, and how the attempt ended. -/
abbrev Stored := Option Value × Except PathError Unit

/-- Stores `v` below a slot, which is empty or holds a value, that was
reached under `label`. -/
def store (path : Path) (v : Value) : Bytes → Option Value → List Segment → Ending → Stored
  | _, _, [], .complete => (some v, .ok ())
  | _, slot, [], .stray offset => (slot, .error (.noticed path offset .strayByte))
  | label, slot, [], .badName start fault =>
    match slot.getD (.dict .empty) with
    | .dict d => (some (.dict d), .error (.noticed path start fault))
    | w => (some w, .error (.noticed path start (.notADict .writing label)))
  | _, slot, [], .badIndex _ offset fault =>
    (some (slot.getD (.array [])), .error (.noticed path offset fault))
  | label, slot, .name start name :: rest, ending =>
    match slot.getD (.dict .empty) with
    | .dict d =>
      if rest = [] ∧ ending = .complete then
        (some (.dict (d.replace name v)), .ok ())
      else
        match store path v name (d.get? name) rest ending with
        | (some w, outcome) => (some (.dict (d.put name w)), outcome)
        | (none, outcome) => (some (.dict d), outcome)
    | w => (some w, .error (.noticed path start (.notADict .writing label)))
  | label, slot, .index _ stop i :: rest, ending =>
    match slot.getD (.array []) with
    | .array items =>
      match store path v label items[i]? rest ending with
      | (some w, outcome) =>
        match Items.set items i w with
        | (changed, .ok ()) => (some (.array changed), outcome)
        | (left, .error _) => (some (.array left), .error (.noticed path stop .noRoom))
      | (none, outcome) => (some (.array items), outcome)
    | w => (some w, .error (.noticed path stop (.notAnArray .writing label)))

end Path

/-- A value that could not be stored, and why. -/
structure Unassigned where
  error : PathError
  value : Value
  deriving DecidableEq, Repr

/-- The namespace after storing `v` at `path`, and whether that worked. -/
def assign (ns : Dict Value) (path : Path) (v : Value) : Dict Value × Except Unassigned Unit :=
  let r := path.read
  let stored := path.store v [] (some (.dict ns)) r.segments r.ending
  let outcome := stored.2.mapError (⟨·, v⟩)
  match stored.1 with
  | some (.dict changed) => (changed, outcome)
  | _ => (ns, outcome)

end Stencil
