import Stencil.Proofs.Path.Failure

/-!
# When an assignment succeeds

An assignment succeeds exactly on the paths of the grammar that meet no value of the
wrong kind on their way.  What is missing on the way is no obstacle, and there is
always room in an array.
-/

namespace Stencil

namespace Value

theorem isSome_graft?_cons (v : Value) (slot : Option Value) (step : Step) (rest : List Step) :
    (graft? v slot (step :: rest)).isSome ↔
      (slot.getD step.container).Admits step ∧
        (graft? v ((slot.getD step.container).member? step) rest).isSome := by
  cases step with
  | name name =>
      rw [graft?, Step.container]
      cases slot.getD (.dict .empty) with
      | dict d =>
          by_cases hrest : rest = []
          · simp [hrest, Admits]
          · simp [hrest, Admits, member?]
      | _ =>
          simp [Admits]
  | index i =>
      rw [graft?, Step.container]
      cases slot.getD (.array []) with
      | array items =>
          simp [Admits, member?]
      | _ =>
          simp [Admits]

/-- A value can be stored at steps unless one of them finds a value of the wrong kind. -/
theorem isSome_graft?_iff (v : Value) (slot : Option Value) (steps : List Step) :
    (graft? v slot steps).isSome ↔
      ∀ front step back w, steps = front ++ step :: back →
        slot.bind (·.follow? front) = some w → w.Admits step := by
  induction steps generalizing slot with
  | nil =>
      constructor
      · intro _ front step back w hsplit
        cases front with
        | nil =>
            cases hsplit
        | cons other front =>
            cases hsplit
      · intro _
        simp
  | cons step rest ih =>
      have hbehind : ∀ front, slot.bind (·.follow? (step :: front)) =
          ((slot.getD step.container).member? step).bind (·.follow? front) := by
        intro front
        rw [bind_follow?_eq_of_getD rfl (member?_container step step), follow?_cons]
      rw [isSome_graft?_cons, ih]
      constructor
      · intro h front other back w hsplit hfollow
        rcases h with ⟨hadmits, hrest⟩
        cases front with
        | nil =>
            rw [List.nil_append, List.cons.injEq] at hsplit
            rcases hsplit with ⟨rfl, _⟩
            have hslot : slot = some w := by simpa using hfollow
            rw [hslot] at hadmits
            exact hadmits
        | cons first front =>
            rw [List.cons_append, List.cons.injEq] at hsplit
            rcases hsplit with ⟨rfl, hsplit⟩
            rw [hbehind] at hfollow
            exact hrest front other back w hsplit hfollow
      · intro h
        constructor
        · cases hslot : slot with
          | none =>
              exact admits_container step
          | some w =>
              exact h [] step rest w rfl (by simp [hslot])
        · intro front other back w hsplit hfollow
          apply h (step :: front) other back w
          · rw [hsplit, List.cons_append]
          · rw [hbehind]
            exact hfollow

end Value

namespace Path

theorem Fails.fault {path : Path} {label : Bytes} {slot after : Option Value}
    {segments : List Segment} {ending : Ending} {e : PathError}
    (h : Fails path label slot segments ending after e) :
    ending.fault? = some e.fault ∨ e.fault.IsMismatch .writing := by
  induction h with
  | stray =>
      exact Or.inl rfl
  | badName _ =>
      exact Or.inl rfl
  | badNameMismatch _ =>
      exact Or.inr rfl
  | badIndex =>
      exact Or.inl rfl
  | @mismatch _ _ segment _ _ _ =>
      right
      cases segment with
      | name start name =>
          rfl
      | index start stop i =>
          rfl
  | within _ _ _ ih =>
      exact ih

end Path

theorem assign_error_fault {ns ns' : Dict Value} {path : Path} {v : Value} {e : Unassigned}
    (h : assign ns path v = (ns', .error e)) :
    e.error.fault.IsSyntactic ∨ e.error.fault.IsMismatch .writing := by
  have hfails := ((assign_eq_error_iff ns ns' path v e).mp h).right
  cases hfails.fault with
  | inl hfault =>
      exact Or.inl (path.sound_read.syntactic _ hfault)
  | inr hmismatch =>
      exact Or.inr hmismatch

theorem PathFault.toClass_of_writing {fault : PathFault}
    (h : fault.IsSyntactic ∨ fault.IsMismatch .writing) :
    fault.toClass ≠ .allocation ∧ fault.toClass ≠ .notFound := by
  cases fault with
  | noRoom =>
      cases h with
      | inl hsyntactic =>
          cases hsyntactic
      | inr hmismatch =>
          cases hmismatch
  | notFound name =>
      cases h with
      | inl hsyntactic =>
          cases hsyntactic
      | inr hmismatch =>
          cases hmismatch
  | _ =>
      constructor
      · nofun
      · nofun

theorem exists_assign_iff (ns : Dict Value) (path : Path) (v : Value) :
    (∃ ns', assign ns path v = (ns', .ok ())) ↔
      ∃ steps, Path.Spells path steps ∧ (Value.graft? v (some (.dict ns)) steps).isSome := by
  constructor
  · rintro ⟨ns', h⟩
    rcases (assign_eq_ok_iff ns ns' path v).mp h with ⟨steps, hspells, hgraft⟩
    exact ⟨steps, hspells, Option.isSome_of_eq_some hgraft⟩
  · rintro ⟨steps, hspells, hsome⟩
    rcases Option.isSome_iff_exists.mp hsome with ⟨w, hgraft⟩
    rcases hspells.exists_dict hgraft with ⟨ns', rfl⟩
    exact ⟨ns', (assign_eq_ok_iff ns ns' path v).mpr ⟨steps, hspells, hgraft⟩⟩

theorem Path.Spells.isSome_graft?_empty {path : Path} {steps : List Step}
    (h : Path.Spells path steps) (v : Value) :
    (Value.graft? v (some (.dict .empty)) steps).isSome := by
  cases h with
  | @start name rest steps _ _ =>
      rw [Value.isSome_graft?_cons]
      constructor
      · trivial
      · rw [Option.getD_some]
        have hmissing : (Value.dict .empty).member? (.name name) = none := rfl
        rw [hmissing, Value.isSome_graft?_iff]
        intro front step back w _ hfollow
        cases hfollow

/-!
# The theorem
-/

/-- An assignment succeeds exactly on the paths of the grammar on whose way every value
that is there is a dictionary before a name and an array before an index; in an empty
namespace that is every path of the grammar.  It never fails for want of room, nor because
something is missing. -/
theorem assign_succeeds_iff (ns : Dict Value) (path : Path) (v : Value) :
    ((∃ ns', assign ns path v = (ns', .ok ())) ↔
      ∃ steps, Path.Spells path steps ∧
        ∀ front step back w, steps = front ++ step :: back →
          (Value.dict ns).follow? front = some w → w.Admits step) ∧
    ((∃ ns', assign .empty path v = (ns', .ok ())) ↔ ∃ steps, Path.Spells path steps) ∧
    ∀ ns' e, assign ns path v = (ns', .error e) →
      e.error.fault.toClass ≠ .allocation ∧ e.error.fault.toClass ≠ .notFound := by
  refine ⟨?_, ?_, ?_⟩
  · rw [exists_assign_iff]
    apply exists_congr
    intro steps
    rw [Value.isSome_graft?_iff]
    rfl
  · rw [exists_assign_iff]
    constructor
    · rintro ⟨steps, hspells, _⟩
      exact ⟨steps, hspells⟩
    · rintro ⟨steps, hspells⟩
      exact ⟨steps, hspells, hspells.isSome_graft?_empty v⟩
  · intro ns' e h
    exact PathFault.toClass_of_writing (assign_error_fault h)

end Stencil
