import Stencil.Proofs.Path.Failure

/-!
# Extended paths

A path of the grammar may be extended by what begins with a separator.  The
extension is then read as if nothing stood before it, and followed from the
value that the path leads to.
-/

namespace Stencil

theorem Value.follow?_append (v : Value) (steps others : List Step) :
    v.follow? (steps ++ others) = (v.follow? steps).bind (·.follow? others) := by
  induction steps generalizing v with
  | nil =>
      rfl
  | cons step rest ih =>
      rw [List.cons_append, follow?_cons, follow?_cons, Option.bind_assoc]
      simp only [ih]

namespace Path

/-!
# Reading
-/

def Reading.behind (r : Reading) (segments : List Segment) : Reading :=
  { r with segments := segments ++ r.segments }

theorem Reading.steps_behind (r : Reading) (segments : List Segment) :
    (r.behind segments).steps = segments.map Segment.step ++ r.steps :=
  List.map_append

theorem AtSeparator.append {rest more : Bytes} (hrest : AtSeparator rest)
    (hmore : AtSeparator more) : AtSeparator (rest ++ more) := by
  cases rest with
  | nil =>
      exact hmore
  | cons b rest =>
      exact hrest

theorem Continues.readFrom_append {rest : Bytes} {steps : List Step} (h : Continues rest steps)
    {more : Bytes} (hmore : AtSeparator more) :
    ∀ offset, ∃ segments, segments.map Segment.step = steps ∧
      Path.readFrom .separator offset (rest ++ more) =
        (Path.readFrom .separator (offset + rest.length) more).behind segments := by
  induction h with
  | done =>
      intro offset
      exact ⟨[], rfl, rfl⟩
  | @name name rest steps hname hrest ih =>
      intro offset
      rcases ih (offset + 1 + name.length) with ⟨segments, hsteps, hread⟩
      have hoffset : offset + (Byte.dot :: (name ++ rest)).length =
          offset + 1 + name.length + rest.length := by
        simp only [List.length_cons, List.length_append]
        omega
      refine ⟨.name (offset + 1) name :: segments, congrArg (Step.name name :: ·) hsteps, ?_⟩
      rw [List.cons_append, List.append_assoc, Path.readFrom, if_pos rfl,
        readFrom_name hname.separatorFree (hrest.atSeparator.append hmore),
        closeName_of_isName hname, hread, hoffset]
      rfl
  | @index token rest steps htoken _ ih =>
      intro offset
      rcases ih (offset + 1 + token.length + 1) with ⟨segments, hsteps, hread⟩
      have hoffset : offset +
          (Byte.openBracket :: (token ++ Byte.closeBracket :: rest)).length =
          offset + 1 + token.length + 1 + rest.length := by
        simp only [List.length_cons, List.length_append]
        omega
      refine ⟨.index (offset + 1) (offset + 1 + token.length + 1) (Bytes.digitsValue token) ::
        segments, congrArg (Step.index (Bytes.digitsValue token) :: ·) hsteps, ?_⟩
      rw [List.cons_append, List.append_assoc, List.cons_append, Path.readFrom,
        if_neg (by decide),
        if_pos rfl, readFrom_index htoken.closeBracket_notMem,
        closeIndex_of_isIndexToken htoken, hread, hoffset]
      rfl

theorem Spells.read_append {path : Path} {steps : List Step} (h : Spells path steps)
    {more : Bytes} (hmore : AtSeparator more) :
    ∃ segments, segments.map Segment.step = steps ∧
      read (path ++ more) = (readFrom .separator path.length more).behind segments := by
  cases h with
  | @start name rest steps hname hrest =>
      rcases hrest.readFrom_append hmore (0 + name.length) with ⟨segments, hsteps, hread⟩
      refine ⟨.name 0 name :: segments, congrArg (Step.name name :: ·) hsteps, ?_⟩
      have hne : ¬ (name ++ rest ++ more).isEmpty = true := by
        simp [hname.nonempty]
      have hoffset : (name ++ rest).length = 0 + name.length + rest.length := by
        rw [List.length_append, Nat.zero_add]
      rw [read, if_neg hne, List.append_assoc,
        readFrom_name hname.separatorFree (hrest.atSeparator.append hmore),
        closeName_of_isName hname, hread, hoffset]
      rfl

/-- What extends a path of the grammar has to continue it. -/
theorem Spells.append_iff {path : Path} {steps : List Step} (h : Spells path steps)
    {more : Bytes} (hmore : AtSeparator more) (all : List Step) :
    Spells (path ++ more) all ↔ ∃ others, Continues more others ∧ all = steps ++ others := by
  constructor
  · intro hall
    rcases h.read_append hmore with ⟨segments, hsteps, hread⟩
    rcases (spells_iff_read _ all).mp hall with ⟨hending, rfl⟩
    rw [hread] at hending
    refine ⟨_, continues_of_complete more path.length hending, ?_⟩
    rw [hread, Reading.steps_behind, hsteps]
  · intro hothers
    rcases hothers with ⟨others, hcontinues, rfl⟩
    exact h.append hcontinues

/-!
# Following
-/

def labelBehind (label : Bytes) (segments : List Segment) : Bytes :=
  segments.foldl (fun label segment => segment.label label) label

theorem find_append (path : Path) (label : Bytes) {v c : Value} {segments : List Segment}
    (h : v.follow? (segments.map Segment.step) = some c) (more : List Segment)
    (ending : Ending) :
    find path label v (segments ++ more) ending =
      find path (labelBehind label segments) c more ending := by
  induction segments generalizing label v with
  | nil =>
      cases h
      rfl
  | cons segment rest ih =>
      rw [List.map_cons, Value.follow?_cons] at h
      rcases Option.bind_eq_some_iff.mp h with ⟨w, hw, hfollow⟩
      cases segment with
      | name start name =>
          cases v with
          | dict d =>
              have hget : d.get? name = some w := hw
              rw [List.cons_append, find, hget]
              exact ih name hfollow
          | _ =>
              cases hw
      | index start stop i =>
          cases v with
          | array items =>
              have hget : items[i]? = some w := hw
              rw [List.cons_append, find]
              simp only [hget]
              exact ih label hfollow
          | _ =>
              cases hw

/-- Looking up an extended path is following the extension from the value at the path. -/
theorem lookup_append {ns : Dict Value} {path : Path} {c : Value} (h : lookup ns path = .ok c)
    {more : Bytes} (hmore : AtSeparator more) :
    ∃ label, lookup ns (path ++ more) =
      find (path ++ more) label c (readFrom .separator path.length more).segments
        (readFrom .separator path.length more).ending := by
  rcases (lookup_eq_ok_iff ns path c).mp h with ⟨steps, hspells, hfollow⟩
  rcases hspells.read_append hmore with ⟨segments, hsteps, hread⟩
  rw [← hsteps] at hfollow
  refine ⟨labelBehind [] segments, ?_⟩
  rw [lookup, hread]
  exact find_append (path ++ more) [] hfollow _ _

/-!
# Joining
-/

theorem atSeparator_dot (rest : Bytes) : AtSeparator (Byte.dot :: rest) := by
  intro b hb
  cases hb
  exact Or.inl rfl

theorem atSeparator_openBracket (rest : Bytes) : AtSeparator (Byte.openBracket :: rest) := by
  intro b hb
  cases hb
  exact Or.inr rfl

theorem continues_dot_iff (path : Path) (steps : List Step) :
    Continues (Byte.dot :: path) steps ↔ Spells path steps := by
  constructor
  · intro h
    cases h with
    | name hname hrest =>
        exact Spells.start hname hrest
  · intro h
    cases h with
    | start hname hrest =>
        exact Continues.name hname hrest

end Path

open Stencil.Path in
theorem lookup_append_dot {ns d : Dict Value} {path : Path}
    (h : lookup ns path = .ok (.dict d)) (other : Path) (v : Value) :
    lookup ns (path ++ Byte.dot :: other) = .ok v ↔ lookup d other = .ok v := by
  rcases (lookup_eq_ok_iff ns path _).mp h with ⟨steps, hspells, hfollow⟩
  have hjoin := hspells.append_iff (atSeparator_dot other)
  rw [lookup_eq_ok_iff, lookup_eq_ok_iff]
  constructor
  · intro hall
    rcases hall with ⟨all, hall, hv⟩
    rcases (hjoin all).mp hall with ⟨others, hcontinues, rfl⟩
    rw [Value.follow?_append, hfollow] at hv
    exact ⟨others, (continues_dot_iff other others).mp hcontinues, hv⟩
  · intro hothers
    rcases hothers with ⟨others, hothers, hv⟩
    refine ⟨steps ++ others,
      (hjoin _).mpr ⟨others, (continues_dot_iff other others).mpr hothers, rfl⟩, ?_⟩
    rw [Value.follow?_append, hfollow]
    exact hv

end Stencil
