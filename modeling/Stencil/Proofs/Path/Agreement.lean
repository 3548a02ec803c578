import Stencil.Proofs.Path.Member
import Stencil.Proofs.Path.Segments
import Stencil.Proofs.Path.Spelling
import Stencil.Proofs.Path.Stopping

/-!
# Looking up and assigning agree on bad paths

Where a look-up stops for another reason than a missing member, an assignment to the same
path fails too.  It has found the same containers on its way, so that it changes nothing,
and it notices the same fault; only an index is read before the value in front of it is
found to be no array.
-/

namespace Stencil
namespace Path

/-- The error of storing that goes with an error of looking up along a path
with the given ending. -/
inductive Corresponds (path : Path) (ending : Ending) : PathError → PathError → Prop where
  | syntactic {e : PathError} :
      ending.fault? = some e.fault → Corresponds path ending e e
  | notADict {offset : Nat} {label : Bytes} :
      Corresponds path ending (.noticed path offset (.notADict .reading label))
        (.noticed path offset (.notADict .writing label))
  | notAnArray {start stop : Nat} {label : Bytes} :
      Corresponds path ending (.noticed path start (.notAnArray .reading label))
        (.noticed path stop (.notAnArray .writing label))
  | badIndex {start offset : Nat} {label : Bytes} {fault : PathFault} :
      ending = .badIndex start offset fault →
      Corresponds path ending (.noticed path start (.notAnArray .reading label))
        (.noticed path offset fault)

theorem corresponds_unfit (path : Path) (ending : Ending) (label : Bytes) (segment : Segment) :
    Corresponds path ending (segment.unfit path label) (segment.mismatch path label) := by
  cases segment with
  | name start name =>
      exact Corresponds.notADict
  | index start stop i =>
      exact Corresponds.notAnArray

theorem Fails.within_member {path : Path} {label : Bytes} {v w : Value} {segment : Segment}
    {rest : List Segment} {ending : Ending} {e : PathError} (hv : v.Distinct)
    (hmember : v.member? segment.step = some w)
    (h : Fails path (segment.label label) (some w) rest ending (some w) e) :
    Fails path label (some v) (segment :: rest) ending (some v) e := by
  rw [← hmember] at h
  have hwithin : Fails path label (some v) (segment :: rest) ending
      (some ((v.member? segment.step).elim v (v.place segment.step))) e :=
    Fails.within rfl (Value.admits_of_member? hmember) h
  rw [hmember, Option.elim_some, hv.place_self hmember] at hwithin
  exact hwithin

/-- Storing fails where a look-up stops, unless that has only missed a member. -/
theorem Stops.exists_fails {path : Path} {label : Bytes} {v : Value} {segments : List Segment}
    {ending : Ending} {e : PathError} (h : Stops path label v segments ending e)
    (hv : v.Distinct) :
    (∃ segment ∈ segments, e = segment.missing path) ∨
      ∃ e', Corresponds path ending e e' ∧
        Fails path label (some v) segments ending (some v) e' := by
  induction h with
  | stray =>
      exact Or.inr ⟨_, Corresponds.syntactic rfl, Fails.stray⟩
  | badName =>
      exact Or.inr ⟨_, Corresponds.syntactic rfl, Fails.badName rfl⟩
  | badNameUnfit hdict =>
      exact Or.inr ⟨_, Corresponds.notADict, Fails.badNameMismatch hdict⟩
  | badIndex =>
      exact Or.inr ⟨_, Corresponds.syntactic rfl, Fails.badIndex⟩
  | badIndexUnfit _ =>
      exact Or.inr ⟨_, Corresponds.badIndex rfl, Fails.badIndex⟩
  | missing _ _ =>
      exact Or.inl ⟨_, List.mem_cons_self, rfl⟩
  | unfit hmismatch =>
      exact Or.inr ⟨_, corresponds_unfit path _ _ _, Fails.mismatch hmismatch⟩
  | within hmember _ ih =>
      rcases ih (hv.member hmember) with ⟨segment, hmem, he⟩ | ⟨e', hcorresponds, hfails⟩
      · exact Or.inl ⟨segment, List.mem_cons_of_mem _ hmem, he⟩
      · exact Or.inr ⟨e', hcorresponds, hfails.within_member hv hmember⟩

def OutOfBoundsAt (path : Path) (offset : Nat) : Prop :=
  ∃ front token rest,
    path = front ++ Byte.openBracket :: (token ++ Byte.closeBracket :: rest) ∧
      offset = front.length + 1 + token.length + 1 ∧
      (∀ b ∈ token, Byte.isDigit b = true) ∧ maxArrayLength ≤ Bytes.digitsValue token

theorem openBracket_notMem_of_digits {token : Bytes} (h : ∀ b ∈ token, Byte.isDigit b = true) :
    Byte.openBracket ∉ token := by
  intro hmem
  have hdigit := h _ hmem
  revert hdigit
  decide

theorem token_eq_of_stop {front front' token token' rest rest' : Bytes}
    (h : front ++ Byte.openBracket :: (token ++ Byte.closeBracket :: rest) =
      front' ++ Byte.openBracket :: (token' ++ Byte.closeBracket :: rest'))
    (hstop : front.length + 1 + token.length + 1 = front'.length + 1 + token'.length + 1)
    (hopen : Byte.openBracket ∉ token) (hopen' : Byte.openBracket ∉ token') :
    token = token' := by
  rw [← List.cons_append, ← List.append_assoc, ← List.cons_append, ← List.append_assoc] at h
  have hlength : (front ++ Byte.openBracket :: token).length =
      (front' ++ Byte.openBracket :: token').length := by
    simp only [List.length_append, List.length_cons]
    omega
  -- What comes before the bracket is the same, and the token is what follows its
  -- last opening bracket.
  have hreverse := congrArg List.reverse (List.append_inj_left h hlength)
  rw [List.reverse_append, List.reverse_append, List.reverse_cons, List.reverse_cons,
    List.append_assoc, List.append_assoc] at hreverse
  have htoken := append_cons_inj (mt List.mem_reverse.mp hopen) (mt List.mem_reverse.mp hopen')
    hreverse
  exact List.reverse_inj.mp htoken.left

theorem not_outOfBoundsAt_of_mem {path : Path} {start stop i : Nat}
    (h : .index start stop i ∈ path.read.segments) : ¬ path.OutOfBoundsAt stop := by
  intro hbounds
  rcases exists_token_of_mem h with ⟨front, token, rest, hpath, htoken, hstop⟩
  rcases hbounds with ⟨front', token', rest', hpath', hstop', hdigits, hbound⟩
  have heq := token_eq_of_stop (hpath.symm.trans hpath') (hstop.symm.trans hstop')
    (openBracket_notMem_of_digits htoken.digits) (openBracket_notMem_of_digits hdigits)
  rw [← heq] at hbound
  exact absurd htoken.bounded (Nat.not_lt.mpr hbound)

end Path

theorem exists_assign_corresponds {ns : Dict Value} {path : Path} {e : PathError}
    (hns : (Value.dict ns).Distinct) (h : lookup ns path = .error e) (v : Value) :
    (∃ segment ∈ path.read.segments, e = segment.missing path) ∨
      ∃ e', Path.Corresponds path path.read.ending e e' ∧
        assign ns path v = (ns, .error ⟨e', v⟩) := by
  rcases (stops_of_lookup h).exists_fails hns with hmissing | ⟨e', hcorresponds, hfails⟩
  · exact Or.inl hmissing
  · exact Or.inr ⟨e', hcorresponds,
      (assign_eq_error_iff ns ns path v ⟨e', v⟩).mpr ⟨rfl, hfails⟩⟩

theorem PathFault.IsSyntactic.toClass_ne {fault : PathFault} (h : fault.IsSyntactic) :
    fault.toClass ≠ .notADict ∧ fault.toClass ≠ .notAnArray := by
  cases fault with
  | notADict access name =>
      cases h
  | notAnArray access name =>
      cases h
  | _ =>
      constructor
      · nofun
      · nofun

theorem Path.Segment.toClass_missing (path : Path) (segment : Path.Segment) :
    (segment.missing path).fault.toClass = .notFound ∨
      (segment.missing path).fault.toClass = .indexOutOfBounds := by
  cases segment with
  | name start name =>
      exact Or.inl rfl
  | index start stop i =>
      exact Or.inr rfl

section

variable {ns : Dict Value} {path : Path} {e : PathError}

theorem assign_of_syntactic (hns : (Value.dict ns).Distinct) (h : lookup ns path = .error e)
    (hsyntactic : e.fault.IsSyntactic)
    (hbounds : e.fault = .indexOutOfBounds → path.OutOfBoundsAt e.offset) (v : Value) :
    assign ns path v = (ns, .error ⟨e, v⟩) := by
  rcases exists_assign_corresponds hns h v with ⟨segment, hmem, rfl⟩
    | ⟨e', hcorresponds, hassign⟩
  · cases segment with
    | name start name =>
        cases hsyntactic
    | index start stop i =>
        exact absurd (hbounds rfl) (Path.not_outOfBoundsAt_of_mem hmem)
  · cases hcorresponds with
    | syntactic _ =>
        exact hassign
    | notADict =>
        cases hsyntactic
    | notAnArray =>
        cases hsyntactic
    | badIndex _ =>
        cases hsyntactic

theorem assign_of_notADict (hns : (Value.dict ns).Distinct) (h : lookup ns path = .error e)
    (hclass : e.fault.toClass = .notADict) (v : Value) :
    ∃ e', assign ns path v = (ns, .error ⟨e', v⟩) ∧ e'.fault.toClass = .notADict ∧
      e'.offset = e.offset := by
  rcases exists_assign_corresponds hns h v with ⟨segment, _, rfl⟩ | ⟨e', hcorresponds, hassign⟩
  · rcases segment.toClass_missing path with hmissing | hmissing
    · cases hclass.symm.trans hmissing
    · cases hclass.symm.trans hmissing
  · cases hcorresponds with
    | syntactic hending =>
        exact absurd hclass (path.sound_read.syntactic _ hending).toClass_ne.left
    | notADict =>
        exact ⟨_, hassign, rfl, rfl⟩
    | notAnArray =>
        cases hclass
    | badIndex _ =>
        cases hclass

theorem assign_of_notAnArray (hns : (Value.dict ns).Distinct) (h : lookup ns path = .error e)
    (hclass : e.fault.toClass = .notAnArray) (v : Value) :
    ∃ e', assign ns path v = (ns, .error ⟨e', v⟩) ∧
      (e'.fault.toClass = .notAnArray ∨
        ∃ n, Path.BadIndex (path.drop e.offset) n e'.fault ∧ e'.offset = e.offset + n) := by
  rcases exists_assign_corresponds hns h v with ⟨segment, _, rfl⟩ | ⟨e', hcorresponds, hassign⟩
  · rcases segment.toClass_missing path with hmissing | hmissing
    · cases hclass.symm.trans hmissing
    · cases hclass.symm.trans hmissing
  · cases hcorresponds with
    | syntactic hending =>
        exact absurd hclass (path.sound_read.syntactic _ hending).toClass_ne.right
    | notADict =>
        cases hclass
    | notAnArray =>
        exact ⟨_, hassign, Or.inl rfl⟩
    | badIndex hending =>
        rcases Path.exists_badIndex_of_ending hending with
          ⟨front, rest, n, hpath, rfl, rfl, hbad⟩
        refine ⟨_, hassign, Or.inr ⟨n, ?_, rfl⟩⟩
        have hdrop : path.drop (front.length + 1) = rest := by
          rw [hpath, List.append_cons, List.drop_left']
          rw [List.length_append, List.length_singleton]
        rw [← hdrop] at hbad
        exact hbad

end

/-!
# The theorem
-/

/-- Where a look-up fails because the path is malformed, an assignment fails with the same
error and changes nothing; that includes an index out of bounds when no array has room for
it.  Where the look-up finds no dictionary, the assignment fails for the same reason at
the same offset; where it finds no array, the assignment does so too, or finds the index
at fault that follows.  In these cases as well nothing changes. -/
theorem assign_agrees_with_failed_lookup {ns : Dict Value} {path : Path} {e : PathError}
    (hns : (Value.dict ns).Distinct) (h : lookup ns path = .error e) (v : Value) :
    (e.fault.IsSyntactic → (e.fault = .indexOutOfBounds → path.OutOfBoundsAt e.offset) →
      assign ns path v = (ns, .error ⟨e, v⟩)) ∧
    (e.fault.toClass = .notADict → ∃ e', assign ns path v = (ns, .error ⟨e', v⟩) ∧
      e'.fault.toClass = .notADict ∧ e'.offset = e.offset) ∧
    (e.fault.toClass = .notAnArray → ∃ e', assign ns path v = (ns, .error ⟨e', v⟩) ∧
      (e'.fault.toClass = .notAnArray ∨
        ∃ n, Path.BadIndex (path.drop e.offset) n e'.fault ∧ e'.offset = e.offset + n)) := by
  refine ⟨?_, ?_, ?_⟩
  · intro hsyntactic hbounds
    exact assign_of_syntactic hns h hsyntactic hbounds v
  · intro hclass
    exact assign_of_notADict hns h hclass v
  · intro hclass
    exact assign_of_notAnArray hns h hclass v

/-- Of `a[0].b[x]` a look-up says that `b` is no array, and an assignment
that `x` is no number. -/
theorem assign_agrees_behind_index :
    lookup ⟨[(Bytes.ofText "a", .array [.dict ⟨[(Bytes.ofText "b", .int 1)]⟩])]⟩
        (Bytes.ofText "a[0].b[x]") =
      .error ⟨.notAnArray .reading (Bytes.ofText "b"), 7, Bytes.ofText "a[0].b["⟩ ∧
    ∃ e', assign ⟨[(Bytes.ofText "a", .array [.dict ⟨[(Bytes.ofText "b", .int 1)]⟩])]⟩
        (Bytes.ofText "a[0].b[x]") (.int 7) =
          (⟨[(Bytes.ofText "a", .array [.dict ⟨[(Bytes.ofText "b", .int 1)]⟩])]⟩,
            .error ⟨e', .int 7⟩) ∧
      e'.fault = .indexNotANumber ∧ e'.offset = 9 := by
  have hfound : lookup ⟨[(Bytes.ofText "a", .array [.dict ⟨[(Bytes.ofText "b", .int 1)]⟩])]⟩
      (Bytes.ofText "a[0].b[x]") =
        .error ⟨.notAnArray .reading (Bytes.ofText "b"), 7, Bytes.ofText "a[0].b["⟩ := by
    rfl
  have hb : (Value.dict ⟨[(Bytes.ofText "b", .int 1)]⟩).Distinct :=
    (Value.Distinct.container (.name (Bytes.ofText "b"))).place (Value.admits_container _)
      (Value.Distinct.int 1)
  have ha : (Value.array [.dict ⟨[(Bytes.ofText "b", .int 1)]⟩]).Distinct :=
    (Value.Distinct.container (.index 0)).place (Value.admits_container _) hb
  have hns : (Value.dict
      ⟨[(Bytes.ofText "a", .array [.dict ⟨[(Bytes.ofText "b", .int 1)]⟩])]⟩).Distinct :=
    (Value.Distinct.container (.name (Bytes.ofText "a"))).place (Value.admits_container _) ha
  rcases (assign_agrees_with_failed_lookup hns hfound (.int 7)).right.right rfl with
    ⟨e', hassign, _⟩
  refine ⟨hfound, e', hassign, ?_⟩
  cases hassign
  exact ⟨rfl, rfl⟩

end Stencil
