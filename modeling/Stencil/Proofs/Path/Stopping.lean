import Stencil.Proofs.Path.Failure

/-!
# How looking up fails

A look-up that fails has passed members of the containers on its way and stops
before a segment, or at the ending of the path, because of what it has found
there.  That makes failure a relation of the path and the value from which it is
followed, as it is for storing.
-/

namespace Stencil
namespace Path

def Segment.missing (path : Path) : Segment → PathError
  | .name start bytes => .noticed path start (.notFound bytes)
  | .index _ stop _ => .noticed path stop .indexOutOfBounds

def Segment.unfit (path : Path) (label : Bytes) : Segment → PathError
  | .name start _ => .noticed path start (.notADict .reading label)
  | .index start _ _ => .noticed path start (.notAnArray .reading label)

inductive Stops (path : Path) :
    Bytes → Value → List Segment → Ending → PathError → Prop where
  | stray {label : Bytes} {v : Value} {offset : Nat} :
      Stops path label v [] (.stray offset) (.noticed path offset .strayByte)
  | badName {label : Bytes} {d : Dict Value} {start : Nat} {fault : PathFault} :
      Stops path label (.dict d) [] (.badName start fault) (.noticed path start fault)
  | badNameUnfit {label : Bytes} {v : Value} {start : Nat} {fault : PathFault} :
      (∀ d, v ≠ .dict d) →
      Stops path label v [] (.badName start fault)
        (.noticed path start (.notADict .reading label))
  | badIndex {label : Bytes} {items : List Value} {start offset : Nat} {fault : PathFault} :
      Stops path label (.array items) [] (.badIndex start offset fault)
        (.noticed path offset fault)
  | badIndexUnfit {label : Bytes} {v : Value} {start offset : Nat} {fault : PathFault} :
      (∀ items, v ≠ .array items) →
      Stops path label v [] (.badIndex start offset fault)
        (.noticed path start (.notAnArray .reading label))
  | missing {label : Bytes} {v : Value} {segment : Segment} {rest : List Segment}
      {ending : Ending} :
      v.Admits segment.step → v.member? segment.step = none →
      Stops path label v (segment :: rest) ending (segment.missing path)
  | unfit {label : Bytes} {v : Value} {segment : Segment} {rest : List Segment}
      {ending : Ending} :
      ¬ v.Admits segment.step →
      Stops path label v (segment :: rest) ending (segment.unfit path label)
  | within {label : Bytes} {v w : Value} {segment : Segment} {rest : List Segment}
      {ending : Ending} {e : PathError} :
      v.member? segment.step = some w →
      Stops path (segment.label label) w rest ending e →
      Stops path label v (segment :: rest) ending e

theorem find_unfit (path : Path) (label : Bytes) {v : Value} {segment : Segment}
    (h : ¬ v.Admits segment.step) (rest : List Segment) (ending : Ending) :
    find path label v (segment :: rest) ending = .error (segment.unfit path label) := by
  cases segment with
  | name start name =>
      cases v with
      | dict d =>
          exact absurd trivial h
      | _ =>
          rfl
  | index start stop i =>
      cases v with
      | array items =>
          exact absurd trivial h
      | _ =>
          rfl

theorem find_admitted (path : Path) (label : Bytes) {v : Value} {segment : Segment}
    (h : v.Admits segment.step) (rest : List Segment) (ending : Ending) :
    find path label v (segment :: rest) ending =
      match v.member? segment.step with
      | some w => find path (segment.label label) w rest ending
      | none => .error (segment.missing path) := by
  cases segment with
  | name start name =>
      cases v with
      | dict d =>
          rfl
      | _ =>
          cases h
  | index start stop i =>
      cases v with
      | array items =>
          rfl
      | _ =>
          cases h

theorem stops_of_find_nil {path : Path} {label : Bytes} {v : Value} {ending : Ending}
    {e : PathError} (h : find path label v [] ending = .error e) :
    Stops path label v [] ending e := by
  cases ending with
  | complete =>
      cases h
  | stray offset =>
      cases h
      exact Stops.stray
  | badName start fault =>
      cases v with
      | dict d =>
          cases h
          exact Stops.badName
      | _ =>
          cases h
          exact Stops.badNameUnfit nofun
  | badIndex start offset fault =>
      cases v with
      | array items =>
          cases h
          exact Stops.badIndex
      | _ =>
          cases h
          exact Stops.badIndexUnfit nofun

theorem stops_of_find {path : Path} {label : Bytes} {v : Value} {segments : List Segment}
    {ending : Ending} {e : PathError} (h : find path label v segments ending = .error e) :
    Stops path label v segments ending e := by
  induction segments generalizing label v with
  | nil =>
      exact stops_of_find_nil h
  | cons segment rest ih =>
      by_cases hadmits : v.Admits segment.step
      · rw [find_admitted path label hadmits] at h
        cases hmember : v.member? segment.step with
        | none =>
            rw [hmember] at h
            cases h
            exact Stops.missing hadmits hmember
        | some w =>
            rw [hmember] at h
            exact Stops.within hmember (ih h)
      · rw [find_unfit path label hadmits] at h
        cases h
        exact Stops.unfit hadmits

theorem Stops.eq_noticed {path : Path} {label : Bytes} {v : Value} {segments : List Segment}
    {ending : Ending} {e : PathError} (h : Stops path label v segments ending e) :
    e = .noticed path e.offset e.fault := by
  induction h with
  | @missing _ _ segment =>
      cases segment <;> rfl
  | @unfit _ _ segment =>
      cases segment <;> rfl
  | within _ _ ih =>
      exact ih
  | _ =>
      rfl

end Path

theorem stops_of_lookup {ns : Dict Value} {path : Path} {e : PathError}
    (h : lookup ns path = .error e) :
    Path.Stops path [] (.dict ns) path.read.segments path.read.ending e :=
  Path.stops_of_find h

end Stencil
