import Stencil.CommandLine
import Stencil.Proofs.Path.PointUpdate
import Stencil.Proofs.Template.Words

/-!
# Defines in turn

Defines are applied one after the other, each to the namespace that the one before it has
left.  What a define stores is found in the end, unless a later define stores something at
the same place, on the way to it or inside of it.
-/

namespace Stencil

/-!
# Places apart
-/

theorem Path.Spells.steps?_eq {path : Path} {steps : List Step} (h : Spells path steps) :
    path.steps? = some steps := by
  rcases (spells_iff_read path steps).mp h with ⟨hending, hsteps⟩
  rw [steps?, if_pos hending, hsteps]

theorem Path.Apart.symm {steps others : List Step} (h : Apart steps others) :
    Apart others steps :=
  ⟨h.right, h.left⟩

namespace Path.Spells

variable {path : Path} {steps : List Step} {ns ns' : Dict Value} {v : Value}

theorem follow?_assign (hspells : Spells path steps) (h : assign ns path v = (ns', .ok ())) :
    (Value.dict ns').follow? steps = some v := by
  have hgraft := (hspells.assign_eq_ok_iff ns ns' v).mp h
  have hfollow := Value.follow?_graft?_append hgraft []
  rw [List.append_nil] at hfollow
  exact hfollow

theorem follow?_assign_apart (hspells : Spells path steps)
    (h : assign ns path v = (ns', .ok ())) {others : List Step} (hapart : Apart steps others)
    {w : Value} (hfollow : (Value.dict ns).follow? others = some w) :
    (Value.dict ns').follow? others = some w := by
  have hgraft := (hspells.assign_eq_ok_iff ns ns' v).mp h
  rcases Value.follow?_graft?_apart hgraft hapart with hsame | ⟨hmissing, _, _⟩
  · exact hsame.trans hfollow
  · rw [Option.bind_some, hfollow] at hmissing
    cases hmissing

end Path.Spells

namespace Define

/-!
# Single defines
-/

structure Splits (define : Bytes) (key : Path) (value : Bytes) : Prop where
  split : define = key ++ Byte.equals :: value
  first : Byte.equals ∉ key

theorem cutAt_eq_some_iff (define : Bytes) (key : Path) (value : Bytes) :
    Bytes.cutAt Byte.equals define = some (key, value) ↔ Splits define key value := by
  constructor
  · intro h
    rcases Bytes.cutAt_eq_some h with ⟨hsplit, hfirst⟩
    exact ⟨hsplit, hfirst⟩
  · intro h
    rw [h.split]
    exact Bytes.cutAt_append h.first value

theorem parse_eq_ok_iff (define : Bytes) (key : Path) (value : Bytes) :
    parse define = .ok (key, value) ↔
      Splits define key value ∧ key ≠ [] ∧ value ≠ [] ∧ key.length < keyBound ∧
        Utf8.isValid key = true := by
  rw [← cutAt_eq_some_iff, parse]
  cases hcut : Bytes.cutAt Byte.equals define with
  | none =>
      simp
  | some parts =>
      rcases parts with ⟨front, back⟩
      simp only [Option.some.injEq, Prod.mk.injEq]
      split
      · rename_i hempty
        simp only [List.isEmpty_iff] at hempty
        apply iff_of_false
        · exact nofun
        · intro h
          rcases h with ⟨⟨hkey, hvalue⟩, hkeyNe, hvalueNe, _⟩
          rw [hkey, hvalue] at hempty
          exact hempty.elim hkeyNe hvalueNe
      · rename_i hempty
        simp only [List.isEmpty_iff, not_or] at hempty
        split
        · rename_i hlong
          apply iff_of_false
          · exact nofun
          · intro h
            rcases h with ⟨⟨hkey, _⟩, _, _, hshort, _⟩
            rw [hkey] at hlong
            exact Nat.not_le_of_lt hshort hlong
        · rename_i hshort
          split
          · rename_i hinvalid
            apply iff_of_false
            · exact nofun
            · intro h
              rcases h with ⟨⟨hkey, _⟩, _, _, _, hvalid⟩
              rw [hkey, hvalid] at hinvalid
              cases hinvalid
          · rename_i hvalid
            simp only [Bool.not_eq_true', Bool.not_eq_false] at hvalid
            constructor
            · intro h
              cases h
              exact ⟨⟨rfl, rfl⟩, hempty.left, hempty.right, Nat.lt_of_not_le hshort, hvalid⟩
            · intro h
              rcases h with ⟨⟨rfl, rfl⟩, _⟩
              rfl

theorem apply_eq_ok_iff (ns ns' : Dict Value) (define : Bytes) :
    apply ns define = (ns', .ok ()) ↔
      ∃ key value, parse define = .ok (key, value) ∧
        assign ns key (.string value) = (ns', .ok ()) := by
  rw [apply]
  cases hparse : parse define with
  | error e =>
      simp
  | ok parts =>
      rcases parts with ⟨key, value⟩
      dsimp only
      constructor
      · intro h
        refine ⟨key, value, rfl, ?_⟩
        rcases hassign : assign ns key (.string value) with ⟨changed, e | _⟩
        · rw [hassign] at h
          cases h
        · rw [hassign] at h
          cases h
          rfl
      · intro h
        rcases h with ⟨key', value', hparts, hassign⟩
        cases hparts
        rw [hassign]
        rfl

theorem Splits.assign_of_apply {ns ns' : Dict Value} {define value : Bytes} {key : Path}
    (hsplits : Splits define key value) (h : apply ns define = (ns', .ok ())) :
    assign ns key (.string value) = (ns', .ok ()) := by
  rcases (apply_eq_ok_iff ns ns' define).mp h with ⟨key', value', hparse, hassign⟩
  have hcut' := (cutAt_eq_some_iff define key' value').mpr
    ((parse_eq_ok_iff define key' value').mp hparse).left
  have hcut := (cutAt_eq_some_iff define key value).mpr hsplits
  rw [hcut] at hcut'
  cases hcut'
  exact hassign

/-!
# Defines one after the other
-/

inductive Applies : Dict Value → List Bytes → Dict Value → Prop where
  | nil (ns : Dict Value) : Applies ns [] ns
  | cons {ns next last : Dict Value} {define : Bytes} {rest : List Bytes} :
      apply ns define = (next, .ok ()) → Applies next rest last →
      Applies ns (define :: rest) last

theorem Applies.exists_append {ns last : Dict Value} {front back : List Bytes}
    (h : Applies ns (front ++ back) last) :
    ∃ mid, Applies ns front mid ∧ Applies mid back last := by
  induction front generalizing ns with
  | nil =>
      exact ⟨ns, Applies.nil ns, h⟩
  | cons define front ih =>
      cases h with
      | cons hfirst hrest =>
          rcases ih hrest with ⟨mid, hfront, hback⟩
          exact ⟨mid, Applies.cons hfirst hfront, hback⟩

theorem Applies.follow?_apart {ns last : Dict Value} {defines : List Bytes}
    (h : Applies ns defines last) {steps : List Step}
    (hapart : ∀ define ∈ defines, ∀ key value others, Splits define key value →
      Path.Spells key others → Path.Apart steps others)
    {w : Value} (hfollow : (Value.dict ns).follow? steps = some w) :
    (Value.dict last).follow? steps = some w := by
  -- Each define keeps the value, so that the next one starts where it is found.
  induction h with
  | nil ns =>
      exact hfollow
  | @cons ns next last define rest hfirst hrest ih =>
      rw [List.forall_mem_cons] at hapart
      rcases (apply_eq_ok_iff ns next define).mp hfirst with ⟨key, value, hparse, hassign⟩
      have hsplits := ((parse_eq_ok_iff define key value).mp hparse).left
      rcases (assign_eq_ok_iff ns next key _).mp hassign with ⟨others, hspells, _⟩
      have happartFirst := hapart.left key value others hsplits hspells
      exact ih hapart.right (hspells.follow?_assign_apart hassign happartFirst.symm hfollow)

end Define

theorem CommandLine.defineAll_eq_ok_iff (ns last : Dict Value) (defines : List Bytes) :
    defineAll ns defines = .ok last ↔ Define.Applies ns defines last := by
  induction defines generalizing ns with
  | nil =>
      constructor
      · intro h
        cases h
        exact Define.Applies.nil _
      · intro h
        cases h
        rfl
  | cons define rest ih =>
      rw [defineAll]
      rcases hfirst : Define.apply ns define with ⟨next, e | _⟩
      · apply iff_of_false
        · exact nofun
        · intro h
          cases h with
          | cons hok _ =>
              rw [hfirst] at hok
              cases hok
      · simp only [ih]
        constructor
        · intro h
          exact Define.Applies.cons hfirst h
        · intro h
          cases h with
          | cons hok hrest =>
              rw [hfirst] at hok
              cases hok
              exact hrest

/-!
# The theorem
-/

/-- When defines apply one after the other, the key of each of them spells steps, and its
value is found there in the end unless the steps of a later one lead to the same place, on
the way to it or inside of it. -/
theorem lookup_define_of_later_apart {ns last : Dict Value} {front back : List Bytes}
    {define value : Bytes} {key : Path}
    (h : CommandLine.defineAll ns (front ++ define :: back) = .ok last)
    (hsplits : Define.Splits define key value) :
    ∃ steps, Path.Spells key steps ∧
      ((∀ later ∈ back, ∀ key' value' others, Define.Splits later key' value' →
          Path.Spells key' others → Path.Apart steps others) →
        lookup last key = .ok (.string value)) := by
  rcases ((CommandLine.defineAll_eq_ok_iff ns last _).mp h).exists_append with ⟨mid, _, hback⟩
  cases hback with
  | @cons _ next _ _ _ hdefine hlater =>
      have hassign := hsplits.assign_of_apply hdefine
      rcases (assign_eq_ok_iff mid next key _).mp hassign with ⟨steps, hspells, _⟩
      refine ⟨steps, hspells, ?_⟩
      intro hapart
      apply (hspells.lookup_eq_ok_iff last _).mpr
      exact hlater.follow?_apart hapart (hspells.follow?_assign hassign)

def dataBefore : Dict Value :=
  ⟨[(Bytes.ofText "a", .array [.dict ⟨[(Bytes.ofText "x", .int 5)]⟩])]⟩

def dataAfter : Dict Value :=
  ⟨[(Bytes.ofText "a", .array
      [.dict ⟨[(Bytes.ofText "x", .string (Bytes.ofText "v")),
          (Bytes.ofText "y", .string (Bytes.ofText "3"))]⟩,
        .none, .string (Bytes.ofText "y=z")]),
    (Bytes.ofText "b", .string (Bytes.ofText "0"))]⟩

/-- An entry of a dictionary in an array is defined; then the array grows, and another
entry of the dictionary is defined under another spelling of its index. -/
theorem lookup_define_before_sibling :
    CommandLine.defineAll dataBefore
        ([Bytes.ofText "b=0"] ++ Bytes.ofText "a[0].x=v" ::
          [Bytes.ofText "a[2]=y=z", Bytes.ofText "a[00].y=3"]) = .ok dataAfter ∧
      lookup dataAfter (Bytes.ofText "a[0].x") = .ok (.string (Bytes.ofText "v")) := by
  have hall : CommandLine.defineAll dataBefore
      ([Bytes.ofText "b=0"] ++ Bytes.ofText "a[0].x=v" ::
        [Bytes.ofText "a[2]=y=z", Bytes.ofText "a[00].y=3"]) = .ok dataAfter := by
    rfl
  have hsplits : Define.Splits (Bytes.ofText "a[0].x=v") (Bytes.ofText "a[0].x")
      (Bytes.ofText "v") := by
    constructor <;> decide
  rcases lookup_define_of_later_apart hall hsplits with ⟨steps, hspells, hfound⟩
  have hsteps : some [.name (Bytes.ofText "a"), .index 0, .name (Bytes.ofText "x")] =
      some steps :=
    hspells.steps?_eq
  cases hsteps
  refine ⟨hall, hfound ?_⟩
  intro later hlater key value others hsplits hspells
  have hcut := (Define.cutAt_eq_some_iff later key value).mpr hsplits
  have hothers := hspells.steps?_eq
  simp only [List.mem_cons, List.not_mem_nil, or_false] at hlater
  rcases hlater with rfl | rfl
  · cases hcut
    cases hothers
    constructor <;> decide
  · cases hcut
    cases hothers
    constructor <;> decide

end Stencil
