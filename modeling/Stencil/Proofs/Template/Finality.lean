import Stencil.Proofs.Template.Halting
import Stencil.Proofs.Template.Nesting
import Stencil.Proofs.Template.Tiling

/-!
# The first error

The error of a source is the first one that it has, and final: neither what stands behind
the directive at fault matters, nor what would have been wrong there.  A block without an
end is an error only where nothing else is.
-/

namespace Stencil

/-!
# Faults and open blocks
-/

def CompileFault.IsIsolated : CompileFault → Prop
  | .outsideOfBlock _ => False
  | .elseInsideElse => False
  | .unclosedBlock _ _ => False
  | _ => True

theorem Directive.isIsolated_of_read {content : Bytes} {fault : CompileFault}
    (h : read content = .error fault) : fault.IsIsolated := by
  rcases fault_of_read h with rfl | rfl
  · trivial
  · trivial

theorem Directive.Reads.eq_word {content : Bytes} {word : Continuation}
    (h : Reads content (.continuation word)) : content = Bytes.ofText word.word := by
  cases h with
  | word _ _ hspells =>
      cases hspells with
      | otherwise =>
          rfl
      | endCond =>
          rfl
      | endLoop =>
          rfl

namespace Builder

theorem fault_of_piece {content : Bytes} (hne : content ≠ []) {span : Span} {b : Builder}
    {e : CompileError} (h : b.piece (.directive content span) = .error e) :
    e.span = span ∧ (e.fault.IsIsolated ∨
      ∃ word, content = Bytes.ofText word.word ∧ Rejects b.pending word e.fault) := by
  rcases (mapError_eq_error_iff _ _ _).mp h with ⟨fault, hfault, rfl⟩
  refine ⟨rfl, ?_⟩
  rcases (bind_eq_error_iff _ _ _).mp hfault with hread | ⟨d, hread, hdirective⟩
  · exact Or.inl (Directive.isIsolated_of_read hread)
  · rcases exists_rejects_of_directive hdirective with ⟨word, rfl, hrejects⟩
    exact Or.inr ⟨word, ((Directive.read_eq_ok_iff hne _).mp hread).eq_word, hrejects⟩

namespace Halts

variable {b : Builder} {offset line : Nat} {left : Bytes} {e : CompileError}

theorem start_eq (h : b.Halts offset line left e) : e.span.start = offset := by
  cases h with
  | unterminated _ =>
      rfl
  | newline _ _ _ =>
      rfl
  | empty _ =>
      rfl
  | refused _ _ hne _ hstep =>
      rw [(fault_of_piece hne hstep).left]

theorem rejects (h : b.Halts offset line left e) (hfault : ¬ e.fault.IsIsolated) :
    ∃ word rest, left = (Fragment.directive (Bytes.ofText word.word)).source ++ rest ∧
      e.span.stop = offset + (Fragment.directive (Bytes.ofText word.word)).source.length ∧
      Rejects b.pending word e.fault := by
  cases h with
  | unterminated _ =>
      exact absurd trivial hfault
  | newline _ _ _ =>
      exact absurd trivial hfault
  | empty _ =>
      exact absurd trivial hfault
  | refused rest _ hne _ hstep =>
      rcases fault_of_piece hne hstep with ⟨hspan, hisolated | ⟨word, rfl, hrejects⟩⟩
      · exact absurd hisolated hfault
      · refine ⟨word, rest, rfl, ?_, hrejects⟩
        rw [hspan, Fragment.length_directive, Nat.add_assoc]

end Halts
end Builder

theorem Rejects.ne_unclosedBlock {blocks : List Pending} {word : Continuation}
    {fault : CompileFault} (h : Rejects blocks word fault) (kind : BlockKind) (begun : Nat) :
    fault ≠ .unclosedBlock kind begun := by
  cases h with
  | outside _ =>
      exact nofun
  | twice _ _ _ =>
      exact nofun

theorem OpenAtEnd.compile {source : Bytes} {blocks : List Pending}
    (h : OpenAtEnd source blocks) :
    (∃ t, Template.compile source = .ok t) ∨
      ∃ e kind begun, Template.compile source = .error e ∧
        e.fault = .unclosedBlock kind begun := by
  rcases (openAtEnd_iff source blocks).mp h with ⟨fragments, b, hcuts, hfold, _⟩
  rw [hcuts.compile_eq hfold]
  cases hfinish : b.finish (1 + Bytes.countNewlines source) with
  | ok t =>
      exact Or.inl ⟨t, rfl⟩
  | error e =>
      rcases (b.finish_eq_error_iff _ e).mp hfinish with ⟨block, rest, _, rfl⟩
      exact Or.inr ⟨_, block.kind, block.span.line, rfl, rfl⟩

namespace Template.StopsAt

variable {source : Bytes} {e : CompileError}

theorem append (h : StopsAt source e) (hterminated : e.fault ≠ .unterminatedDirective)
    (hclosed : ∀ kind begun, e.fault ≠ .unclosedBlock kind begun) (more : Bytes) :
    StopsAt (source ++ more) e := by
  cases h with
  | halted hbegins hfold hhalts =>
      exact halted (hbegins.append more) hfold (hhalts.append hterminated more)
  | unclosed _ _ hfinish =>
      rcases (Builder.finish_eq_error_iff _ _ _).mp hfinish with ⟨block, rest, _, rfl⟩
      exact absurd rfl (hclosed _ _)

theorem exists_openAtEnd (h : StopsAt source e) {kind : BlockKind} {begun : Nat}
    (hfault : e.fault = .unclosedBlock kind begun) :
    ∃ block blocks, OpenAtEnd source (block :: blocks) ∧ block.kind = kind ∧
      block.span = e.span ∧ begun = e.span.line := by
  cases h with
  | halted _ _ hhalts =>
      have hrejects := hhalts.rejects (by simp [hfault, CompileFault.IsIsolated])
      rcases hrejects with ⟨word, rest, _, _, hrejects⟩
      exact absurd hfault (hrejects.ne_unclosedBlock kind begun)
  | @unclosed fragments b _ hcuts hfold hfinish =>
      rcases (Builder.finish_eq_error_iff _ _ _).mp hfinish with ⟨block, rest, hstack, rfl⟩
      cases hfault
      refine ⟨block.pending, rest.map OpenBlock.pending, ?_, block.kind_pending,
        block.span_pending, rfl⟩
      refine (openAtEnd_iff _ _).mpr ⟨fragments, b, hcuts, hfold, ?_⟩
      rw [Builder.pending, hstack]
      rfl

theorem openAtEnd_take (h : StopsAt source e) :
    ∃ blocks, OpenAtEnd (source.take e.span.start) blocks := by
  have hstops := h
  cases h with
  | halted hbegins hfold hhalts =>
      rw [hhalts.start_eq, hbegins.eq_append, List.take_left]
      exact ⟨_, (openAtEnd_iff _ _).mpr ⟨_, _, hbegins.cuts, hfold, rfl⟩⟩
  | unclosed _ _ hfinish =>
      rcases (Builder.finish_eq_error_iff _ _ _).mp hfinish with ⟨_, _, _, he⟩
      rcases hstops.exists_openAtEnd (congrArg CompileError.fault he) with
        ⟨block, blocks, ⟨fragments, hcuts, hopen⟩, _, hspan, _⟩
      rcases hopen.exists_before with ⟨before, opening, inner, hsplit, hbefore, hplace⟩
      have hbegins := hcuts.begins hsplit
      rw [← hspan, hplace, Fragment.spanBehind, hbegins.eq_append, List.take_left]
      exact ⟨blocks, before, hbegins.cuts, hbefore⟩

theorem rejects (h : StopsAt source e) (hfault : ¬ e.fault.IsIsolated)
    (hclosed : ∀ kind begun, e.fault ≠ .unclosedBlock kind begun) :
    ∃ word blocks, OpenAtEnd (source.take e.span.start) blocks ∧
      source.slice e.span.start e.span.stop =
        (Fragment.directive (Bytes.ofText word.word)).source ∧
      Rejects blocks word e.fault := by
  cases h with
  | @halted fragments left b _ hbegins hfold hhalts =>
      rcases hhalts.rejects hfault with ⟨word, rest, rfl, hstop, hrejects⟩
      refine ⟨word, b.pending, ?_, ?_, hrejects⟩
      · rw [hhalts.start_eq, hbegins.eq_append, List.take_left]
        exact (openAtEnd_iff _ _).mpr ⟨_, _, hbegins.cuts, hfold, rfl⟩
      · rw [hhalts.start_eq, hstop, hbegins.eq_append, Bytes.slice_append]
  | unclosed _ _ hfinish =>
      rcases (Builder.finish_eq_error_iff _ _ _).mp hfinish with ⟨block, rest, _, rfl⟩
      exact absurd rfl (hclosed _ _)

end Template.StopsAt

/-!
# The theorem
-/

/-- What stands in front of an error compiles, up to blocks that it leaves open.  Whatever
follows, the error stays the same, unless it is that a directive or a block has no end.  A
directive that needs an open block stands where the innermost one, if there is any, is of
another kind, or is an `if` whose `else` has been read; and a block without an end is the
innermost one at the end of the source. -/
theorem compile_error_first_and_final {source : Bytes} {e : CompileError}
    (h : Template.compile source = .error e) :
    ((∃ t, Template.compile (source.take e.span.start) = .ok t) ∨
      ∃ earlier kind begun, Template.compile (source.take e.span.start) = .error earlier ∧
        earlier.fault = .unclosedBlock kind begun) ∧
    (e.fault ≠ .unterminatedDirective → (∀ kind begun, e.fault ≠ .unclosedBlock kind begun) →
      ∀ more, Template.compile (source ++ more) = .error e) ∧
    (∃ block?, InnermostAtEnd (source.take e.span.start) block? ∧
      (∀ word, e.fault = .outsideOfBlock word →
        source.slice e.span.start e.span.stop =
            (Fragment.directive (Bytes.ofText word.word)).source ∧
          ∀ block ∈ block?, block.kind ≠ word.block) ∧
      (e.fault = .elseInsideElse →
        source.slice e.span.start e.span.stop =
            (Fragment.directive (Bytes.ofText "else")).source ∧
          ∃ block ∈ block?, block.kind = .cond ∧ block.divided = true)) ∧
    (∀ kind begun, e.fault = .unclosedBlock kind begun →
      ∃ block, InnermostAtEnd source (some block) ∧ block.kind = kind ∧ block.span = e.span ∧
        begun = e.span.line) := by
  have hstops := (compile_eq_error_iff source e).mp h
  rcases hstops.openAtEnd_take with ⟨blocks, hblocks⟩
  -- The blocks in front of the error are the ones that its directive
  -- has been rejected for.
  have hrejects : ¬ e.fault.IsIsolated → (∀ kind begun, e.fault ≠ .unclosedBlock kind begun) →
      ∃ word, source.slice e.span.start e.span.stop =
          (Fragment.directive (Bytes.ofText word.word)).source ∧
        Rejects blocks word e.fault := by
    intro hfault hclosed
    rcases hstops.rejects hfault hclosed with ⟨word, others, hothers, hslice, hrejects⟩
    rw [hblocks.unique hothers] at hrejects
    exact ⟨word, hslice, hrejects⟩
  refine ⟨hblocks.compile, ?_, ⟨blocks.head?, hblocks.innermost, ?_, ?_⟩, ?_⟩
  · intro hterminated hclosed more
    exact (hstops.append hterminated hclosed more).compile_eq
  · intro word hfault
    rw [hfault] at hrejects
    rcases hrejects id nofun with ⟨other, hslice, hother⟩
    cases hother with
    | outside hkind =>
        exact ⟨hslice, hkind⟩
  · intro hfault
    rw [hfault] at hrejects
    rcases hrejects id nofun with ⟨other, hslice, hother⟩
    cases hother with
    | twice hhead hkind hdivided =>
        exact ⟨hslice, _, hhead, hkind, hdivided⟩
  · intro kind begun hfault
    rcases hstops.exists_openAtEnd hfault with ⟨block, rest, hopen, hkind, hspan, hbegun⟩
    exact ⟨block, hopen.innermost, hkind, hspan, hbegun⟩

/-- An `else` behind the `else` of the same block, whatever follows it. -/
theorem compile_error_first_and_final_else :
    Template.compile
      (Bytes.ofText "\x7b\x7bif b\x7d\x7d\x7b\x7belse\x7d\x7da\x7b\x7belse\x7d\x7d") =
        .error ⟨.elseInsideElse, 1, ⟨1, 17, 25⟩⟩ ∧
      Template.compile
          (Bytes.ofText "\x7b\x7bif b\x7d\x7d\x7b\x7belse\x7d\x7da\x7b\x7belse\x7d\x7d" ++
            Bytes.ofText "\x7b\x7bendif\x7d\x7d") =
        .error ⟨.elseInsideElse, 1, ⟨1, 17, 25⟩⟩ ∧
      ∃ block, InnermostAtEnd (Bytes.ofText "\x7b\x7bif b\x7d\x7d\x7b\x7belse\x7d\x7da")
        (some block) ∧
        block.kind = .cond ∧ block.divided = true := by
  have herror : Template.compile
      (Bytes.ofText "\x7b\x7bif b\x7d\x7d\x7b\x7belse\x7d\x7da\x7b\x7belse\x7d\x7d") =
        .error ⟨.elseInsideElse, 1, ⟨1, 17, 25⟩⟩ := by
    rfl
  rcases compile_error_first_and_final herror with
    ⟨_, hfinal, ⟨block?, hinnermost, _, hdivided⟩, _⟩
  rcases hdivided rfl with ⟨_, block, hblock, hkind, hsecond⟩
  cases hblock
  exact ⟨herror, hfinal nofun nofun _, block, hinnermost, hkind, hsecond⟩

end Stencil
