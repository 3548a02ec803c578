import Stencil.Path.Reading

/-!
# Looking up a path

The value at a path, found segment by segment.  A container of the wrong kind is noticed
at the separator, before the segment behind it is looked at.
-/

namespace Stencil

def Value.member? : Value → Step → Option Value
  | .dict d, .name bytes => d.get? bytes
  | .array items, .index i => items[i]?
  | _, _ => .none

def Value.follow? (v : Value) : List Step → Option Value
  | [] => some v
  | step :: rest => (v.member? step).bind (follow? · rest)

namespace Path

/-- Follows segments from a value that was reached under `label`, the last name before
it. -/
def find (path : Path) : Bytes → Value → List Segment → Ending → Except PathError Value
  | _, v, [], .complete => .ok v
  | _, _, [], .stray offset => .error (.noticed path offset .strayByte)
  | label, v, [], .badName start fault =>
    match v with
    | .dict _ => .error (.noticed path start fault)
    | _ => .error (.noticed path start (.notADict .reading label))
  | label, v, [], .badIndex start offset fault =>
    match v with
    | .array _ => .error (.noticed path offset fault)
    | _ => .error (.noticed path start (.notAnArray .reading label))
  | label, v, .name start name :: rest, ending =>
    match v with
    | .dict d =>
      match d.get? name with
      | some w => find path name w rest ending
      | none => .error (.noticed path start (.notFound name))
    | _ => .error (.noticed path start (.notADict .reading label))
  | label, v, .index start stop i :: rest, ending =>
    match v with
    | .array items =>
      match items[i]? with
      | some w => find path label w rest ending
      | none => .error (.noticed path stop .indexOutOfBounds)
    | _ => .error (.noticed path start (.notAnArray .reading label))

end Path

def lookup (ns : Dict Value) (path : Path) : Except PathError Value :=
  let r := path.read
  path.find [] (.dict ns) r.segments r.ending

end Stencil
