import Stencil.Proofs.Bytes.Boundary
import Stencil.Proofs.Path.Segments
import Stencil.Proofs.Path.Stopping

/-!
# The first fault on a path

A failed look-up reports an offset.  What comes before the byte in front of it leads
somewhere, and what stands at it is what cannot be followed: a name, an index, or a
separator that the value found so far does not admit.
-/

namespace Stencil

def Step.label : Step → Bytes → Bytes
  | .name bytes, _ => bytes
  | .index _, label => label

namespace Path

def lastName (steps : List Step) : Bytes :=
  steps.foldl (fun label step => step.label label) []

theorem lastName_concat (steps : List Step) (step : Step) :
    lastName (steps ++ [step]) = step.label (lastName steps) := by
  rw [lastName, List.foldl_append]
  rfl

/-!
# Faults and their places
-/

inductive NameFault (d : Dict Value) (bytes : Bytes) : PathFault → Prop where
  | missing :
      IsName (root bytes) → d.get? (root bytes) = none →
      NameFault d bytes (.notFound (root bytes))
  | empty :
      root bytes = [] → NameFault d bytes .emptyName
  | tooLong :
      nameBound ≤ (root bytes).length → NameFault d bytes (.nameTooLong ((root bytes).take 8))

/-- The first fault of a path that is followed from a namespace, and its offset:
at the start of a name, behind the separator that the value before it does not
admit, where an index is noticed to be wrong, or behind a byte that follows an
index and is no separator. -/
inductive FirstFault (ns : Dict Value) : Path → PathFault → Nat → Prop where
  | atStart {path : Path} {fault : PathFault} :
      NameFault ns path fault → FirstFault ns path fault 0
  | behindDot {front rest : Bytes} {d : Dict Value} {fault : PathFault} :
      lookup ns front = .ok (.dict d) → NameFault d rest fault →
      FirstFault ns (front ++ Byte.dot :: rest) fault (front.length + 1)
  | notADict {front rest : Bytes} {steps : List Step} {v : Value} :
      Spells front steps → lookup ns front = .ok v → (∀ d, v ≠ .dict d) →
      FirstFault ns (front ++ Byte.dot :: rest) (.notADict .reading (lastName steps))
        (front.length + 1)
  | notAnArray {front rest : Bytes} {steps : List Step} {v : Value} :
      Spells front steps → lookup ns front = .ok v → (∀ items, v ≠ .array items) →
      FirstFault ns (front ++ Byte.openBracket :: rest) (.notAnArray .reading (lastName steps))
        (front.length + 1)
  | badIndex {front rest : Bytes} {items : List Value} {n : Nat} {fault : PathFault} :
      lookup ns front = .ok (.array items) → BadIndex rest n fault →
      FirstFault ns (front ++ Byte.openBracket :: rest) fault (front.length + 1 + n)
  | pastEnd {front token rest : Bytes} {items : List Value} :
      lookup ns front = .ok (.array items) → IsIndexToken token →
      items.length ≤ Bytes.digitsValue token →
      FirstFault ns (front ++ Byte.openBracket :: (token ++ Byte.closeBracket :: rest))
        .indexOutOfBounds (front.length + 1 + token.length + 1)
  | stray {front rest : Bytes} {steps : List Step} {i : Nat} {b : UInt8} {v : Value} :
      Spells front (steps ++ [.index i]) → lookup ns front = .ok v →
      b ≠ Byte.dot → b ≠ Byte.openBracket →
      FirstFault ns (front ++ b :: rest) .strayByte (front.length + 1)

theorem NameFault.of_nameFault? {bytes : Bytes} {fault : PathFault}
    (h : nameFault? (root bytes) = some fault) (d : Dict Value) : NameFault d bytes fault := by
  unfold nameFault? at h
  split at h
  · rename_i hempty
    cases h
    exact NameFault.empty (List.isEmpty_iff.mp hempty)
  · split at h
    · rename_i hlong
      cases h
      exact NameFault.tooLong hlong
    · cases h

theorem NameFault.of_get? {d : Dict Value} {name rest : Bytes} (hname : IsName name)
    (hrest : AtSeparator rest) (h : d.get? name = none) :
    NameFault d (name ++ rest) (.notFound name) := by
  have hroot := (hname.separatorFree.root_append hrest).left
  have hmissing : NameFault d (name ++ rest) (.notFound (root (name ++ rest))) :=
    NameFault.missing (hroot.symm ▸ hname) (hroot.symm ▸ h)
  rw [hroot] at hmissing
  exact hmissing

/-!
# Passing steps
-/

/-- The look-up of `path` has passed `front`, which spells `steps` and leads to `v`, and
`bytes` are left to be read, from a separator on unless an index has just been closed. -/
structure Passed (ns : Dict Value) (path front bytes : Bytes) (steps : List Step) (v : Value) :
    Prop where
  split : path = front ++ bytes
  spells : Spells front steps
  found : (Value.dict ns).follow? steps = some v
  closed : AtSeparator bytes ∨ ∃ before i, steps = before ++ [.index i]

namespace Passed

variable {ns : Dict Value} {path front : Bytes} {steps : List Step} {v w : Value}

theorem lookup_eq {bytes : Bytes} (h : Passed ns path front bytes steps v) :
    lookup ns front = .ok v :=
  (h.spells.lookup_eq_ok_iff ns v).mpr h.found

theorem follow_concat {bytes : Bytes} (h : Passed ns path front bytes steps v) {step : Step}
    (hmember : v.member? step = some w) :
    (Value.dict ns).follow? (steps ++ [step]) = some w := by
  rw [Value.follow?_concat, h.found]
  exact hmember

theorem name {name rest : Bytes}
    (h : Passed ns path front (Byte.dot :: (name ++ rest)) steps v) (hname : IsName name)
    (hrest : AtSeparator rest) (hmember : v.member? (.name name) = some w) :
    Passed ns path (front ++ Byte.dot :: name) rest (steps ++ [.name name]) w := by
  have hcontinues := Continues.name hname Continues.done
  rw [List.append_nil] at hcontinues
  constructor
  · rw [h.split, List.append_assoc, List.cons_append]
  · exact h.spells.append hcontinues
  · exact h.follow_concat hmember
  · exact Or.inl hrest

theorem index {token rest : Bytes}
    (h : Passed ns path front (Byte.openBracket ::
      (token ++ Byte.closeBracket :: rest)) steps v) (htoken : IsIndexToken token)
    (hmember : v.member? (.index (Bytes.digitsValue token)) = some w) :
    Passed ns path (front ++ Byte.openBracket :: (token ++ [Byte.closeBracket])) rest
      (steps ++ [.index (Bytes.digitsValue token)]) w := by
  constructor
  · rw [h.split, List.append_assoc, List.cons_append, List.append_assoc, List.singleton_append]
  · exact h.spells.append (Continues.index htoken Continues.done)
  · exact h.follow_concat hmember
  · exact Or.inr ⟨steps, _, rfl⟩

end Passed

/-!
# Stopping behind what has been passed
-/

theorem Stops.firstFault {ns : Dict Value} {path : Path} {label : Bytes} {v : Value}
    {segments : List Segment} {ending : Ending} {e : PathError}
    (h : Stops path label v segments ending e) :
    ∀ {front bytes : Bytes} {steps : List Step}, ReadsOn front.length bytes segments ending →
      Passed ns path front bytes steps v → label = lastName steps →
      FirstFault ns path e.fault e.offset := by
  -- Each member that the look-up passes lengthens `front` by the text of its segment.
  induction h with
  | stray =>
      intro front bytes steps hread hpassed _
      cases hread with
      | @stray _ b rest hdot hbracket =>
          rcases hpassed.closed with hseparator | ⟨before, i, rfl⟩
          · exact absurd (hseparator b rfl) (not_or.mpr ⟨hdot, hbracket⟩)
          · rw [hpassed.split]
            exact FirstFault.stray hpassed.spells hpassed.lookup_eq hdot hbracket
  | badName =>
      intro front bytes steps hread hpassed _
      cases hread with
      | badName hfault =>
          rw [hpassed.split]
          exact FirstFault.behindDot hpassed.lookup_eq (NameFault.of_nameFault? hfault _)
  | badNameUnfit hdict =>
      intro front bytes steps hread hpassed hlabel
      cases hread with
      | badName hfault =>
          rw [hpassed.split, hlabel]
          exact FirstFault.notADict hpassed.spells hpassed.lookup_eq hdict
  | badIndex =>
      intro front bytes steps hread hpassed _
      cases hread with
      | badIndex hbad =>
          rw [hpassed.split]
          exact FirstFault.badIndex hpassed.lookup_eq hbad
  | badIndexUnfit harray =>
      intro front bytes steps hread hpassed hlabel
      cases hread with
      | badIndex hbad =>
          rw [hpassed.split, hlabel]
          exact FirstFault.notAnArray hpassed.spells hpassed.lookup_eq harray
  | missing hadmits hmember =>
      intro front bytes steps hread hpassed _
      cases hread with
      | name hname hrest _ =>
          rcases hadmits.exists_container with ⟨d, name, rfl, _⟩ | ⟨_, _, _, hstep⟩
          · rw [hpassed.split]
            exact FirstFault.behindDot hpassed.lookup_eq
              (NameFault.of_get? hname hrest hmember)
          · cases hstep
      | index htoken _ =>
          rcases hadmits.exists_container with ⟨_, _, _, hstep⟩ | ⟨items, i, rfl, _⟩
          · cases hstep
          · rw [hpassed.split]
            exact FirstFault.pastEnd hpassed.lookup_eq htoken
              (List.getElem?_eq_none_iff.mp hmember)
  | unfit hmismatch =>
      intro front bytes steps hread hpassed hlabel
      cases hread with
      | name _ _ _ =>
          rw [hpassed.split, hlabel]
          refine FirstFault.notADict hpassed.spells hpassed.lookup_eq ?_
          intro d hd
          subst hd
          exact hmismatch trivial
      | index _ _ =>
          rw [hpassed.split, hlabel]
          refine FirstFault.notAnArray hpassed.spells hpassed.lookup_eq ?_
          intro items hitems
          subst hitems
          exact hmismatch trivial
  | within hmember _ ih =>
      intro front bytes steps hread hpassed hlabel
      cases hread with
      | @name _ name rest _ _ hname hrest hmore =>
          apply ih _ (hpassed.name hname hrest hmember)
            (lastName_concat steps (.name name)).symm
          have hlength : (front ++ Byte.dot :: name).length =
              front.length + 1 + name.length := by
            rw [List.length_append, List.length_cons]
            omega
          rw [hlength]
          exact hmore
      | @index _ token rest _ _ htoken hmore =>
          apply ih _ (hpassed.index htoken hmember)
            (hlabel.trans (lastName_concat steps (.index _)).symm)
          have hlength : (front ++ Byte.openBracket :: (token ++ [Byte.closeBracket])).length =
              front.length + 1 + token.length + 1 := by
            simp only [List.length_append, List.length_cons, List.length_nil]
            omega
          rw [hlength]
          exact hmore

theorem Reads.firstFault {ns : Dict Value} {path : Path} {segments : List Segment}
    {ending : Ending} {e : PathError} (h : Reads path segments ending)
    (hstops : Stops path [] (.dict ns) segments ending e) :
    FirstFault ns path e.fault e.offset := by
  cases h with
  | badName hfault =>
      cases hstops with
      | badName =>
          exact FirstFault.atStart (NameFault.of_nameFault? hfault ns)
      | badNameUnfit hdict =>
          exact absurd rfl (hdict ns)
  | @name name rest _ _ hname hrest hread =>
      cases hstops with
      | missing _ hmember =>
          exact FirstFault.atStart (NameFault.of_get? hname hrest hmember)
      | unfit hmismatch =>
          exact absurd trivial hmismatch
      | @within _ _ w _ _ _ _ hmember hstops =>
          have hspells := Spells.start hname Continues.done
          rw [List.append_nil] at hspells
          have hpassed : Passed ns (name ++ rest) name rest [.name name] w := by
            constructor
            · rfl
            · exact hspells
            · rw [Value.follow?_cons]
              exact Option.bind_eq_some_iff.mpr ⟨w, hmember, rfl⟩
            · exact Or.inl hrest
          exact hstops.firstFault hread hpassed rfl

/-!
# Offsets
-/

theorem exists_closed {bytes : Bytes} (h : Byte.closeBracket ∈ bytes) :
    ∃ rest, bytes = indexToken bytes ++ Byte.closeBracket :: rest := by
  rcases List.eq_append_cons_of_mem h with ⟨token, rest, rfl, hopen⟩
  exact ⟨rest, by rw [indexToken_closed hopen]⟩

theorem BadIndex.place {bytes : Bytes} {n : Nat} {fault : PathFault}
    (h : BadIndex bytes n fault) :
    n = 0 ∨ n = bytes.length ∨
      ∃ token rest, bytes = token ++ Byte.closeBracket :: rest ∧ n = token.length + 1 := by
  cases h with
  | tooLong _ =>
      exact Or.inl rfl
  | empty _ =>
      exact Or.inl rfl
  | notTerminated _ _ _ =>
      exact Or.inr (Or.inl rfl)
  | notANumber _ hclosed _ _ =>
      rcases exists_closed hclosed with ⟨rest, hrest⟩
      exact Or.inr (Or.inr ⟨_, rest, hrest, rfl⟩)
  | outOfBounds _ _ hclosed _ _ =>
      rcases exists_closed hclosed with ⟨rest, hrest⟩
      exact Or.inr (Or.inr ⟨_, rest, hrest, rfl⟩)

theorem BadIndex.le_length {bytes : Bytes} {n : Nat} {fault : PathFault}
    (h : BadIndex bytes n fault) : n ≤ bytes.length := by
  rcases h.place with rfl | rfl | ⟨token, rest, rfl, rfl⟩
  · exact Nat.zero_le _
  · exact Nat.le_refl _
  · rw [List.length_append, List.length_cons]
    omega

theorem FirstFault.offset_le {ns : Dict Value} {path : Path} {fault : PathFault} {offset : Nat}
    (h : FirstFault ns path fault offset) : offset ≤ path.length := by
  cases h with
  | atStart _ =>
      exact Nat.zero_le _
  | badIndex _ hbad =>
      have hle := hbad.le_length
      rw [List.length_append, List.length_cons]
      omega
  | _ =>
      simp only [List.length_append, List.length_cons]
      omega

theorem isBoundary_behind_index {front token rest : Bytes}
    (hvalid :
      Utf8.isValid (front ++ Byte.openBracket :: (token ++ Byte.closeBracket :: rest)) =
      true) :
    Utf8.isBoundary (front ++ Byte.openBracket :: (token ++ Byte.closeBracket :: rest))
      (front.length + 1 + (token.length + 1)) = true := by
  have hsplit : front ++ Byte.openBracket :: (token ++ Byte.closeBracket :: rest) =
      (front ++ Byte.openBracket :: token) ++ Byte.closeBracket :: rest := by
    rw [List.append_assoc, List.cons_append]
  have hlength : front.length + 1 + (token.length + 1) =
      (front ++ Byte.openBracket :: token).length + 1 := by
    rw [List.length_append, List.length_cons]
    omega
  rw [hsplit] at hvalid ⊢
  rw [hlength]
  exact Utf8.isBoundary_behind_ascii (by decide) hvalid

theorem BadIndex.isBoundary {front bytes : Bytes} {n : Nat} {fault : PathFault}
    (h : BadIndex bytes n fault)
    (hvalid : Utf8.isValid (front ++ Byte.openBracket :: bytes) = true) :
    Utf8.isBoundary (front ++ Byte.openBracket :: bytes) (front.length + 1 + n) = true := by
  rcases h.place with rfl | rfl | ⟨token, rest, rfl, rfl⟩
  · exact Utf8.isBoundary_behind_ascii (by decide) hvalid
  · have hlength : (front ++ Byte.openBracket :: bytes).length =
        front.length + 1 + bytes.length := by
      rw [List.length_append, List.length_cons]
      omega
    rw [← hlength]
    exact Utf8.isBoundary_length _
  · exact isBoundary_behind_index hvalid

theorem FirstFault.isBoundary {ns : Dict Value} {path : Path} {fault : PathFault}
    {offset : Nat} (h : FirstFault ns path fault offset) (hvalid : Utf8.isValid path = true)
    (hfault : fault ≠ .strayByte) : Utf8.isBoundary path offset = true := by
  cases h with
  | atStart _ =>
      exact Utf8.isBoundary_zero hvalid
  | behindDot _ _ =>
      exact Utf8.isBoundary_behind_ascii (by decide) hvalid
  | notADict _ _ _ =>
      exact Utf8.isBoundary_behind_ascii (by decide) hvalid
  | notAnArray _ _ _ =>
      exact Utf8.isBoundary_behind_ascii (by decide) hvalid
  | badIndex _ hbad =>
      exact hbad.isBoundary hvalid
  | pastEnd _ _ _ =>
      exact isBoundary_behind_index hvalid
  | stray _ _ _ _ =>
      exact absurd rfl hfault

end Path

/-!
# The theorem
-/

/-- Where a look-up fails, the path up to the byte before the offset leads to a value,
and what stands at the offset is the first step that cannot be taken from there.  The
offset lies within the path, between two characters unless the fault is a stray byte, and
the path up to it is what is reported as consumed; a stray byte inside a character
reports the whole path. -/
theorem lookup_error_at_first_fault {ns : Dict Value} {path : Path} {e : PathError}
    (hpath : path ≠ []) (hvalid : Utf8.isValid path = true) (h : lookup ns path = .error e) :
    e.offset ≤ path.length ∧
      Path.FirstFault ns path e.fault e.offset ∧
      (e.fault ≠ .strayByte → Utf8.isBoundary path e.offset = true) ∧
      e.consumed = if Utf8.isBoundary path e.offset then path.take e.offset else path := by
  have hstops := stops_of_lookup h
  have hfault := (Path.reads_read hpath).firstFault hstops
  exact ⟨hfault.offset_le, hfault, hfault.isBoundary hvalid,
    congrArg PathError.consumed hstops.eq_noticed⟩

/-- Behind the index in `a[0]é` stands a byte that is no separator, and a character to
which it belongs. -/
theorem lookup_stray_inside_character :
    Utf8.isValid (Bytes.ofText "a[0]é") = true ∧
      lookup ⟨[(Bytes.ofText "a", .array [.int 1])]⟩ (Bytes.ofText "a[0]é") =
        .error ⟨.strayByte, 5, Bytes.ofText "a[0]é"⟩ ∧
      Path.FirstFault ⟨[(Bytes.ofText "a", .array [.int 1])]⟩
        (Bytes.ofText "a[0]é") .strayByte 5 := by
  have hvalid : Utf8.isValid (Bytes.ofText "a[0]é") = true := by
    rfl
  have h : lookup ⟨[(Bytes.ofText "a", .array [.int 1])]⟩ (Bytes.ofText "a[0]é") =
      .error ⟨.strayByte, 5, Bytes.ofText "a[0]é"⟩ := by
    rfl
  have hpath : Bytes.ofText "a[0]é" ≠ [] := by decide
  rcases lookup_error_at_first_fault hpath hvalid h with ⟨_, hfault, _, _⟩
  exact ⟨hvalid, h, hfault⟩

end Stencil
