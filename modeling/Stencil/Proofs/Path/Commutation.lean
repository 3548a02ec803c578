import Stencil.Proofs.Path.Failure
import Stencil.Proofs.Path.Member

/-!
# Two assignments in either order

Values stored at two places apart end up in the same tree whichever is stored
first, except that an array place which the one has filled up with `none`
blocks the other one's way.
-/

namespace Stencil

namespace Value

/-!
# Storing in either order
-/

/-- How storing `v` at `steps` fares in `m`, where another value has been stored
at `others` below the slot: it gives the same as in the order that gave `r`, or
is blocked by padding. -/
inductive Reorders (v : Value) (slot : Option Value) (steps others : List Step) (m r : Value) :
    Prop where
  | same {r' : Value} :
      graft? v (some m) steps = some r' → same r' r = true → Reorders v slot steps others m r
  | blocked {front back : List Step} {step : Step} :
      steps = front ++ step :: back → slot.bind (·.follow? front) = .none →
      m.follow? front = some .none → Path.IsPadding others front →
      Reorders v slot steps others m r

theorem graft?_none_eq_some {v w : Value} {steps : List Step}
    (h : graft? v (some .none) steps = some w) : steps = [] := by
  cases steps with
  | nil =>
      rfl
  | cons step rest =>
      rcases (graft?_cons_eq_some_iff rfl).mp h with ⟨hadmits, _⟩
      cases step <;> cases hadmits

theorem reorders_of_ne {v x y : Value} {slot : Option Value} {c : Value} {step other : Step}
    {rest more : List Step} (hslot : slot.getD step.container = c) (hc : c.Distinct)
    (hstep : c.Admits step) (hother : c.Admits other) (hne : other ≠ step)
    (hx : graft? v (c.member? step) rest = some x) (hx' : x.Distinct) (hy' : y.Distinct) :
    Reorders v slot (step :: rest) (other :: more) (c.install other more y)
      ((c.install step rest x).install other more y) := by
  have hstep' := (admits_install_iff c other more y step).mpr hstep
  have hsame := same_install_comm hc hstep hother hne rest more hx' hy'
  rcases member?_install_of_ne c hne.symm more y with
    hmember | ⟨hmissing, hnone, i, j, hlt, hi, hj⟩
  · apply Reorders.same _ hsame
    apply (graft?_cons_eq_some_iff rfl).mpr
    refine ⟨hstep', x, ?_, rfl⟩
    rw [Option.getD_some, hmember]
    exact hx
  · cases rest with
    | nil =>
        apply Reorders.same _ hsame
        apply (graft?_cons_eq_some_iff rfl).mpr
        refine ⟨hstep', x, ?_, rfl⟩
        rw [graft?_nil] at hx ⊢
        exact hx
    | cons next back =>
        have hsplit : step :: next :: back = [step] ++ next :: back := rfl
        apply Reorders.blocked hsplit
        · rw [bind_follow?_eq_of_getD hslot (member?_container step step),
            follow?_cons, hmissing]
          rfl
        · rw [follow?_cons, hnone]
          rfl
        · exact ⟨[], i, j, more, hlt, by rw [hj]; rfl, by rw [hi]; rfl⟩

theorem Reorders.cons {v y x' : Value} {slot : Option Value} {c : Value} {step : Step}
    {rest more : List Step} (hslot : slot.getD step.container = c) (hc : c.Distinct)
    (hstep : c.Admits step) (hrest : rest ≠ []) (hv : v.Distinct) (hx' : x'.Distinct)
    (hy : y.Distinct) (h : Reorders v (c.member? step) rest more x' y) :
    Reorders v slot (step :: rest) (step :: more) (c.place step x') (c.place step y) := by
  cases h with
  | same hgraft hsame =>
      rename_i y'
      have hagain : graft? v (some (c.place step x')) (step :: rest) =
          some (c.place step y') := by
        apply (graft?_cons_eq_some_iff rfl).mpr
        refine ⟨hstep.place x', y', ?_, ?_⟩
        · rw [Option.getD_some, hstep.member?_place]
          exact hgraft
        · rw [Option.getD_some, install_of_ne_nil _ step hrest, place_place]
      exact Reorders.same hagain (same_place hc hstep (hx'.graft?_some hv hgraft) hy hsame)
  | blocked hsplit hmissing hnone hpadding =>
      rename_i front back next
      have hsplit' : step :: rest = (step :: front) ++ next :: back := by
        rw [hsplit, List.cons_append]
      apply Reorders.blocked hsplit'
      · rw [bind_follow?_eq_of_getD hslot (member?_container step step), follow?_cons]
        exact hmissing
      · rw [follow?_cons, hstep.member?_place]
        exact hnone
      · exact hpadding.cons step

theorem graft?_comm {v w m r : Value} {slot : Option Value} {steps others : List Step}
    (hslot : ∀ c, slot = some c → c.Distinct) (hv : v.Distinct) (hw : w.Distinct)
    (hapart : Path.Apart steps others) (hfirst : graft? v slot steps = some m)
    (hsecond : graft? w (some m) others = some r) :
    ∃ m', graft? w slot others = some m' ∧ Reorders v slot steps others m' r := by
  -- As long as the paths go the same way, both pass from the slot to the
  -- slot behind the step.
  induction steps generalizing slot others m r with
  | nil =>
      exact absurd List.nil_prefix hapart.left
  | cons step rest ih =>
      rcases hapart.exists_cons with ⟨other, more, rfl, hmore⟩
      rcases (graft?_cons_eq_some_iff rfl).mp hfirst with ⟨hstep, x, hx, rfl⟩
      rcases (graft?_cons_eq_some_iff rfl).mp hsecond with ⟨hother, y, hy, rfl⟩
      rw [Option.getD_some, admits_install_iff] at hother
      rw [Option.getD_some] at hy ⊢
      have hcontainer := getD_container hother
      have hc := Distinct.getD_container hslot step
      have hxDistinct : x.Distinct := Distinct.graft? (fun _ => hc.member) hv hx
      generalize hslot' : slot.getD step.container = c at hstep hx hother hy hcontainer hc ⊢
      by_cases hne : other = step
      · subst hne
        have happart := hmore rfl
        have hrest : rest ≠ [] := by
          rintro rfl
          exact happart.left List.nil_prefix
        have hmore' : more ≠ [] := by
          rintro rfl
          exact happart.right List.nil_prefix
        rw [hstep.member?_install] at hy
        have hyDistinct := hxDistinct.graft?_some hw hy
        rcases ih (fun _ => hc.member) happart hx hy with ⟨x', hx', hreorders⟩
        refine ⟨c.place other x', ?_, ?_⟩
        · apply (graft?_cons_eq_some_iff hslot').mpr
          exact ⟨hstep, x', hx', install_of_ne_nil c other hmore' x'⟩
        · rw [install_of_ne_nil _ other hmore', install_of_ne_nil c other hrest, place_place]
          have hx'Distinct := Distinct.graft? (fun _ => hc.member) hw hx'
          exact hreorders.cons hslot' hc hstep hrest hv hx'Distinct hyDistinct
      · have hy' : graft? w (c.member? other) more = some y := by
          rcases member?_install_of_ne c hne rest x with hmember | ⟨hmissing, hnone, _⟩
          · rw [hmember] at hy
            exact hy
          · rw [hnone] at hy
            have hlast := graft?_none_eq_some hy
            subst hlast
            rw [graft?_nil] at hy ⊢
            exact hy
        have hyDistinct : y.Distinct := Distinct.graft? (fun _ => hc.member) hw hy'
        refine ⟨c.install other more y, ?_, ?_⟩
        · exact (graft?_cons_eq_some_iff hcontainer).mpr ⟨hother, y, hy', rfl⟩
        · exact reorders_of_ne hslot' hc hstep hother hne hx hxDistinct hyDistinct

end Value

namespace Path

/-!
# Failing at a place
-/

def lastLabel (label : Bytes) (segments : List Segment) : Bytes :=
  segments.foldl (fun label segment => segment.label label) label

theorem Fails.of_mismatch (path : Path) {label : Bytes} {slot : Option Value}
    {before behind : List Segment} {segment : Segment} (ending : Ending) {w : Value}
    (hslot : slot.bind (·.follow? (before.map Segment.step)) = some w)
    (h : ¬ w.Admits segment.step) :
    ∃ after, Fails path label slot (before ++ segment :: behind) ending after
      (segment.mismatch path (lastLabel label before)) := by
  induction before generalizing label slot with
  | nil =>
      rcases Option.bind_eq_some_iff.mp hslot with ⟨c, rfl, hc⟩
      rw [List.map_nil, Value.follow?_nil] at hc
      cases hc
      exact ⟨_, Fails.mismatch h⟩
  | cons first before ih =>
      rcases Option.bind_eq_some_iff.mp hslot with ⟨c, rfl, hc⟩
      rw [List.map_cons, Value.follow?_cons] at hc
      rcases Option.bind_eq_some_iff.mp hc with ⟨x, hx, _⟩
      rcases ih hc with ⟨after, hfails⟩
      exact ⟨_, Fails.within rfl (Value.admits_of_member? hx) hfails⟩

theorem not_admits_none (step : Step) : ¬ Value.none.Admits step := by
  cases step <;> exact id

theorem Segment.toClass_mismatch (path : Path) (label : Bytes) (segment : Segment) :
    (segment.mismatch path label).fault.toClass = .notADict ∨
      (segment.mismatch path label).fault.toClass = .notAnArray := by
  cases segment with
  | name start name =>
      exact Or.inl rfl
  | index start stop i =>
      exact Or.inr rfl

end Path

/-!
# The theorem
-/

/-- Two assignments to places apart that succeed one after the other can change their
order: the second one succeeds first, and the first one after it gives the same namespace,
up to the order of entries, unless it needs a container at an array place that was missing
before and is now padding. -/
theorem assign_apart_comm {ns ns₁ r : Dict Value} {path other : Path} {v w : Value}
    {steps others : List Step} (hns : (Value.dict ns).Distinct) (hv : v.Distinct)
    (hw : w.Distinct) (hpath : Path.Spells path steps) (hother : Path.Spells other others)
    (hapart : Path.Apart steps others) (hfirst : assign ns path v = (ns₁, .ok ()))
    (hsecond : assign ns₁ other w = (r, .ok ())) :
    ∃ ns₂, assign ns other w = (ns₂, .ok ()) ∧
      ((∃ r', assign ns₂ path v = (r', .ok ()) ∧ Value.same (.dict r') (.dict r) = true) ∨
        ∃ ns₃ e, assign ns₂ path v = (ns₃, .error e) ∧
          (e.error.fault.toClass = .notADict ∨ e.error.fault.toClass = .notAnArray) ∧
          ∃ before segment behind,
            path.read.segments = before ++ segment :: behind ∧
            e.error = segment.mismatch path (Path.lastLabel [] before) ∧
            (Value.dict ns).follow? (before.map Path.Segment.step) = none ∧
            (Value.dict ns₂).follow? (before.map Path.Segment.step) = some .none ∧
            Path.IsPadding others (before.map Path.Segment.step)) := by
  have hgraft := (hpath.assign_eq_ok_iff ns ns₁ v).mp hfirst
  have hgraft' := (hother.assign_eq_ok_iff ns₁ r w).mp hsecond
  have hslot : ∀ c, some (Value.dict ns) = some c → c.Distinct := by
    rintro _ ⟨rfl⟩
    exact hns
  rcases Value.graft?_comm hslot hv hw hapart hgraft hgraft' with ⟨m, hm, hreorders⟩
  rcases hother.exists_dict hm with ⟨ns₂, rfl⟩
  refine ⟨ns₂, (hother.assign_eq_ok_iff ns ns₂ w).mpr hm, ?_⟩
  cases hreorders with
  | same hagain hsame =>
      left
      rcases hpath.exists_dict hagain with ⟨r', rfl⟩
      exact ⟨r', (hpath.assign_eq_ok_iff ns₂ r' v).mpr hagain, hsame⟩
  | blocked hsplit hmissing hnone hpadding =>
      right
      rename_i front back step
      rcases (Path.spells_iff_read path steps).mp hpath with ⟨hending, hsteps⟩
      have hsegments : path.read.segments.map Path.Segment.step = front ++ step :: back :=
        hsteps.trans hsplit
      rcases List.map_eq_append_iff.mp hsegments with ⟨before, tail, hread, rfl, htail⟩
      rcases List.map_eq_cons_iff.mp htail with ⟨segment, behind, rfl, rfl, rfl⟩
      have hblocked : (some (Value.dict ns₂)).bind
          (·.follow? (before.map Path.Segment.step)) = some .none := hnone
      rcases Path.Fails.of_mismatch path .complete hblocked
        (Path.not_admits_none segment.step) with ⟨after, hfails⟩
      rcases hfails.exists_dict with ⟨ns₃, rfl⟩
      refine ⟨ns₃, ⟨_, v⟩, ?_, segment.toClass_mismatch path _, before, segment,
        behind, hread, rfl, hmissing, hnone, hpadding⟩
      apply (assign_eq_error_iff ns₂ ns₃ path v _).mpr
      refine ⟨rfl, ?_⟩
      rw [hread, hending]
      exact hfails

/-- In an empty namespace `a[0].b` and then `a[1]` can be assigned, but
not the other way round. -/
theorem assign_apart_comm_behind_padding :
    assign .empty (Bytes.ofText "a[0].b") (.int 1) =
        (⟨[(Bytes.ofText "a", .array [.dict ⟨[(Bytes.ofText "b", .int 1)]⟩])]⟩, .ok ()) ∧
      assign ⟨[(Bytes.ofText "a", .array [.dict ⟨[(Bytes.ofText "b", .int 1)]⟩])]⟩
          (Bytes.ofText "a[1]") (.int 2) =
        (⟨[(Bytes.ofText "a", .array [.dict ⟨[(Bytes.ofText "b", .int 1)]⟩, .int 2])]⟩,
          .ok ()) ∧
      ∃ ns₂, assign .empty (Bytes.ofText "a[1]") (.int 2) = (ns₂, .ok ()) ∧
        ∃ ns₃ e, assign ns₂ (Bytes.ofText "a[0].b") (.int 1) = (ns₃, .error e) ∧
          e.error.fault = .notADict .writing (Bytes.ofText "a") := by
  have hfirst : assign .empty (Bytes.ofText "a[0].b") (.int 1) =
      (⟨[(Bytes.ofText "a", .array [.dict ⟨[(Bytes.ofText "b", .int 1)]⟩])]⟩, .ok ()) := by
    rfl
  have hsecond : assign ⟨[(Bytes.ofText "a", .array [.dict ⟨[(Bytes.ofText "b", .int 1)]⟩])]⟩
      (Bytes.ofText "a[1]") (.int 2) =
        (⟨[(Bytes.ofText "a", .array [.dict ⟨[(Bytes.ofText "b", .int 1)]⟩, .int 2])]⟩,
          .ok ()) := by
    rfl
  have hpath : Path.Spells (Bytes.ofText "a[0].b")
      [.name (Bytes.ofText "a"), .index 0, .name (Bytes.ofText "b")] :=
    (Path.spells_iff_read _ _).mpr ⟨rfl, rfl⟩
  have hother : Path.Spells (Bytes.ofText "a[1]") [.name (Bytes.ofText "a"), .index 1] :=
    (Path.spells_iff_read _ _).mpr ⟨rfl, rfl⟩
  have hapart : Path.Apart [.name (Bytes.ofText "a"), .index 0, .name (Bytes.ofText "b")]
      [.name (Bytes.ofText "a"), .index 1] :=
    ⟨by decide, by decide⟩
  have hempty : (Value.dict .empty).Distinct := Value.Distinct.container (.name [])
  rcases assign_apart_comm hempty (Value.Distinct.int 1)
    (Value.Distinct.int 2) hpath hother hapart
    hfirst hsecond with ⟨ns₂, hns₂, ⟨r', hr', _⟩ | ⟨ns₃, e, herror, _⟩⟩
  · cases hns₂
    cases hr'
  · refine ⟨hfirst, hsecond, ns₂, hns₂, ns₃, e, herror, ?_⟩
    cases hns₂
    cases herror
    rfl

end Stencil
