import Stencil.Proofs.Path.Failure

/-!
# What a failed assignment leaves behind

An assignment that fails may have created containers on its way and filled up
arrays.  That damages nothing: what was there can still be looked up, what is new
is empty or a container, and the same path fails once more in the same way
without leaving anything else.
-/

namespace Stencil

namespace Value

/-!
# Growth
-/

inductive Grows : Value → Value → Prop where
  | none : Grows .none .none
  | int (n : Int64) : Grows (.int n) (.int n)
  | string (bytes : Bytes) : Grows (.string bytes) (.string bytes)
  | array {items more : List Value} :
      items.length ≤ more.length → Grows (.array items) (.array more)
  | dict {d more : Dict Value} : d.size ≤ more.size → Grows (.dict d) (.dict more)

inductive IsFiller : Value → Prop where
  | none : IsFiller .none
  | array (items : List Value) : IsFiller (.array items)
  | dict (d : Dict Value) : IsFiller (.dict d)

theorem Grows.refl (w : Value) : w.Grows w := by
  cases w with
  | none =>
      exact Grows.none
  | int n =>
      exact Grows.int n
  | string bytes =>
      exact Grows.string bytes
  | array items =>
      exact Grows.array (Nat.le_refl _)
  | dict d =>
      exact Grows.dict (Nat.le_refl _)

theorem Admits.isFiller {c : Value} {step : Step} (h : c.Admits step) : c.IsFiller := by
  rcases h.exists_container with ⟨d, _, rfl, _⟩ | ⟨items, _, rfl, _⟩
  · exact IsFiller.dict d
  · exact IsFiller.array items

theorem Admits.grows_place {c : Value} {step : Step} (h : c.Admits step) (w : Value) :
    c.Grows (c.place step w) := by
  rcases h.exists_container with ⟨d, name, rfl, rfl⟩ | ⟨items, i, rfl, rfl⟩
  · exact Grows.dict (d.size_le_size_put name w)
  · apply Grows.array
    rw [Items.length_put]
    exact Nat.le_max_left _ _

/-- What may become of a place, be it empty or not. -/
inductive Settles : Option Value → Option Value → Prop where
  | missing : Settles .none .none
  | created {w : Value} : w.IsFiller → Settles .none (some w)
  | kept {w w' : Value} : w.Grows w' → Settles (some w) (some w')

theorem Settles.refl (slot : Option Value) : Settles slot slot := by
  cases slot with
  | none =>
      exact Settles.missing
  | some w =>
      exact Settles.kept (Grows.refl w)

theorem settles_container (slot : Option Value) (step : Step) (others : List Step) :
    Settles (slot.bind (·.follow? others)) ((slot.getD step.container).follow? others) := by
  cases slot with
  | none =>
      cases others with
      | nil =>
          exact Settles.created (admits_container step).isFiller
      | cons other more =>
          rw [Option.getD_none, follow?_cons, member?_container]
          exact Settles.missing
  | some w =>
      exact Settles.refl _

theorem settles_padding (others : List Step) :
    Settles .none ((some Value.none).bind (·.follow? others)) := by
  cases others with
  | nil =>
      exact Settles.created IsFiller.none
  | cons step more =>
      cases step with
      | name name =>
          exact Settles.missing
      | index i =>
          exact Settles.missing

end Value

/-!
# Everything else is found again
-/

namespace Path

open Value in
theorem Fails.settles {path : Path} {label : Bytes} {slot after : Option Value}
    {segments : List Segment} {ending : Ending} {e : PathError}
    (h : Fails path label slot segments ending after e) (others : List Step) :
    Settles (slot.bind (·.follow? others)) (after.bind (·.follow? others)) := by
  -- Along the path a place settles as what the induction says of the slot behind it, and
  -- beside the path only padding is new.
  induction h generalizing others with
  | stray =>
      exact Settles.refl _
  | @badName _ slot _ _ d hslot =>
      have hsettles := settles_container slot (.name []) others
      rw [Step.container, hslot] at hsettles
      exact hsettles
  | badNameMismatch _ =>
      exact Settles.refl _
  | @badIndex _ slot _ _ _ =>
      exact settles_container slot (.index 0) others
  | mismatch _ =>
      exact Settles.refl _
  | @within _ slot after c segment _ _ _ hslot hadmits _ ih =>
      cases after with
      | none =>
          have hsettles := settles_container slot segment.step others
          rw [hslot] at hsettles
          exact hsettles
      | some w =>
          cases others with
          | nil =>
              cases slot with
              | none =>
                  exact Settles.created (hadmits.place w).isFiller
              | some held =>
                  have hheld : held = c := hslot
                  rw [hheld]
                  exact Settles.kept (hadmits.grows_place w)
          | cons other more =>
              rw [bind_follow?_eq_of_getD hslot (member?_container segment.step other),
                follow?_cons]
              have hafter : (some ((some w).elim c (c.place segment.step))).bind
                  (·.follow? (other :: more)) =
                    ((c.place segment.step w).member? other).bind (·.follow? more) := rfl
              rw [hafter]
              by_cases hother : other = segment.step
              · rw [hother, hadmits.member?_place]
                exact ih more
              · rcases member?_place_of_ne c hother w with hsame | ⟨hmissing, hpadding⟩
                · rw [hsame]
                  exact Settles.refl _
                · rw [hmissing, hpadding]
                  exact settles_padding more

/-!
# The same path fails again
-/

theorem Fails.again {path : Path} {label : Bytes} {slot after : Option Value}
    {segments : List Segment} {ending : Ending} {e : PathError}
    (h : Fails path label slot segments ending after e) :
    Fails path label after segments ending after e := by
  induction h with
  | stray =>
      exact Fails.stray
  | badName _ =>
      exact Fails.badName rfl
  | badNameMismatch hdict =>
      exact Fails.badNameMismatch hdict
  | badIndex =>
      exact Fails.badIndex
  | mismatch hmismatch =>
      exact Fails.mismatch hmismatch
  | @within label slot after c segment rest ending e hslot hadmits hfails ih =>
      cases after with
      | none =>
          exact Fails.within rfl hadmits hfails
      | some w =>
          -- The member that the first attempt stored is the one that the
          -- second attempt finds.
          have hplaced := hadmits.place w
          have hmember := hadmits.member?_place w
          rw [← hmember] at ih
          have hagain : Fails path label (some (c.place segment.step w))
              (segment :: rest) ending
              (some (((c.place segment.step w).member? segment.step).elim
                (c.place segment.step w)
                ((c.place segment.step w).place segment.step))) e :=
                  Fails.within rfl hplaced ih
          rw [hmember, Option.elim_some, Value.place_place] at hagain
          exact hagain

end Path

/-!
# The theorem
-/

/-- A failed assignment hands the value back.  Whatever could be looked up before is found
again, with no more than new entries in containers; what could not is padding or a
container.  To assign to the same path once more, be it another value, fails with the same
error and changes nothing. -/
theorem assign_error_harmless {ns ns' : Dict Value} {path : Path} {v : Value} {e : Unassigned}
    (h : assign ns path v = (ns', .error e)) :
    e.value = v ∧
      (∀ other w, lookup ns other = .ok w → ∃ w', lookup ns' other = .ok w' ∧ w.Grows w') ∧
      (∀ other missing w', lookup ns other = .error missing → lookup ns' other = .ok w' →
        w'.IsFiller) ∧
      ∀ another, assign ns' path another = (ns', .error ⟨e.error, another⟩) := by
  rcases (assign_eq_error_iff ns ns' path v e).mp h with ⟨hvalue, hfails⟩
  refine ⟨hvalue, ?_, ?_, ?_⟩
  · intro other w hfound
    rcases (lookup_eq_ok_iff ns other w).mp hfound with ⟨steps, hspells, hfollow⟩
    have hsettles := hfails.settles steps
    rw [Option.bind_some, Option.bind_some, hfollow] at hsettles
    generalize hafter : (Value.dict ns').follow? steps = after at hsettles
    cases hsettles with
    | kept hgrows =>
        exact ⟨_, (hspells.lookup_eq_ok_iff ns' _).mpr hafter, hgrows⟩
  · intro other missing w' hmissing hfound
    rcases (lookup_eq_ok_iff ns' other w').mp hfound with ⟨steps, hspells, hfollow⟩
    have hbefore := (hspells.lookup_eq_error_iff ns).mp ⟨missing, hmissing⟩
    have hsettles := hfails.settles steps
    rw [Option.bind_some, Option.bind_some, hfollow, hbefore] at hsettles
    cases hsettles with
    | created hfiller =>
        exact hfiller
  · intro another
    exact (assign_eq_error_iff ns' ns' path another ⟨e.error, another⟩).mpr ⟨rfl, hfails.again⟩

/-- The array `a` is filled up and a dictionary with an array is created
before the index fails. -/
theorem assign_error_behind_padding :
    assign ⟨[(Bytes.ofText "a", .array [.int 1])]⟩ (Bytes.ofText "a[2].b[x]") (.int 7) =
        (⟨[(Bytes.ofText "a",
          .array [.int 1, .none, .dict ⟨[(Bytes.ofText "b", .array [])]⟩])]⟩,
          .error ⟨⟨.indexNotANumber, 9, Bytes.ofText "a[2].b[x]"⟩, .int 7⟩) ∧
      assign
          ⟨[(Bytes.ofText "a",
            .array [.int 1, .none, .dict ⟨[(Bytes.ofText "b", .array [])]⟩])]⟩
          (Bytes.ofText "a[2].b[x]") (.string []) =
        (⟨[(Bytes.ofText "a",
          .array [.int 1, .none, .dict ⟨[(Bytes.ofText "b", .array [])]⟩])]⟩,
          .error ⟨⟨.indexNotANumber, 9, Bytes.ofText "a[2].b[x]"⟩, .string []⟩) := by
  have h :
      assign ⟨[(Bytes.ofText "a", .array [.int 1])]⟩ (Bytes.ofText "a[2].b[x]") (.int 7) =
        (⟨[(Bytes.ofText "a",
          .array [.int 1, .none, .dict ⟨[(Bytes.ofText "b", .array [])]⟩])]⟩,
          .error ⟨⟨.indexNotANumber, 9, Bytes.ofText "a[2].b[x]"⟩, .int 7⟩) := by
    rfl
  rcases assign_error_harmless h with ⟨_, _, _, hagain⟩
  exact ⟨h, hagain (.string [])⟩

end Stencil
