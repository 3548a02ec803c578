import Stencil.Proofs.Template.Beginning
import Stencil.Proofs.Template.Concatenation

/-!
# Where compiling stops

The compiler halts at the first directive that is at fault.  Whether one is depends on the
directive and on what has been built in front of it.  A source without such a directive is
read to its end, where a block may be open.
-/

namespace Stencil

/-!
# Directives at fault
-/

/-- The directive that is left of a source at an offset is at fault: it has no end, a
newline in it or nothing in it, or else the compiler refuses it. -/
inductive Builder.Halts (b : Builder) (offset line : Nat) : Bytes → CompileError → Prop where
  | unterminated {behind : Bytes} :
      Bytes.NoPair Byte.closeBrace behind →
      Halts b offset line (Byte.openBrace :: Byte.openBrace :: behind)
        (.inside ⟨line, offset, offset + 2⟩ .unterminatedDirective)
  | newline {content : Bytes} {position : Nat} (rest : Bytes) :
      Bytes.NoPair Byte.closeBrace (content ++ [Byte.closeBrace]) →
      content.idxOf? Byte.newline = some position →
      Halts b offset line ((Fragment.directive content).source ++ rest)
        (.inside ⟨line, offset, offset + 2 + position⟩ .newlineInDirective)
  | empty (rest : Bytes) :
      Halts b offset line ((Fragment.directive []).source ++ rest)
        (.inside ⟨line, offset, offset + 4⟩ .emptyDirective)
  | refused {content : Bytes} {e : CompileError} (rest : Bytes) :
      Bytes.NoPair Byte.closeBrace (content ++ [Byte.closeBrace]) →
      content ≠ [] → Byte.newline ∉ content →
      b.piece (.directive content ⟨line, offset, offset + content.length + 4⟩) = .error e →
      Halts b offset line ((Fragment.directive content).source ++ rest) e

def Builder.compileCut (b : Builder) (cut : Cut) : Except CompileError Template :=
  cut.pieces.foldlM Builder.piece b >>= fun b => cut.ending >>= fun line => b.finish line

theorem Template.compile_eq_compileCut (source : Bytes) :
    compile source = Builder.compileCut {} (Piece.cutOn 0 1 source) := rfl

namespace Builder

theorem compileCut_prepend {pieces : List Piece} {b b' : Builder}
    (h : pieces.foldlM Builder.piece b = .ok b') (cut : Cut) :
    b.compileCut (cut.prepend pieces) = b'.compileCut cut := by
  rw [compileCut, Cut.prepend, foldlM_append_of_ok h]
  rfl

theorem Halts.compileCut {b : Builder} {offset line : Nat} {left : Bytes} {e : CompileError}
    (h : b.Halts offset line left e) :
    b.compileCut (Piece.cutOn offset line left) = .error e := by
  cases h with
  | unterminated hopen =>
      rw [Piece.cutOn_braces, Piece.cutFrom_unterminated hopen]
      rfl
  | newline rest hcontent hposition =>
      rw [Piece.cutOn_directive hcontent, Piece.closeDirective,
        Fragment.take_content, hposition]
      rfl
  | empty rest =>
      have hcontent : Bytes.NoPair Byte.closeBrace ([] ++ [Byte.closeBrace]) :=
        Bytes.noPair_concat_of_notMem List.not_mem_nil
      rw [Piece.cutOn_directive hcontent, Piece.closeDirective, Fragment.take_content]
      rfl
  | refused rest hcontent hne hline hstep =>
      rw [Piece.cutOn_directive hcontent, Fragment.closeDirective_of_valid hne hline]
      rw [Builder.compileCut, Cut.prepend, List.singleton_append, List.foldlM_cons, hstep]
      rfl

/-- What is read behind a directive does not matter, unless the directive has no end. -/
theorem Halts.append {b : Builder} {offset line : Nat} {left : Bytes} {e : CompileError}
    (h : b.Halts offset line left e) (hfault : e.fault ≠ .unterminatedDirective)
    (more : Bytes) :
    b.Halts offset line (left ++ more) e := by
  cases h with
  | unterminated _ =>
      exact absurd rfl hfault
  | newline rest hcontent hposition =>
      rw [List.append_assoc]
      exact newline (rest ++ more) hcontent hposition
  | empty rest =>
      rw [List.append_assoc]
      exact empty (rest ++ more)
  | refused rest hcontent hne hline hstep =>
      rw [List.append_assoc]
      exact refused (rest ++ more) hcontent hne hline hstep

end Builder

/-!
# Where compiling stops
-/

namespace Builder

theorem foldlM_directive {text content : Bytes} (hline : Byte.newline ∉ content)
    {offset line : Nat} {b mid next : Builder}
    (htext : (Fragment.place offset line (Fragment.ofText text)).foldlM piece b = .ok mid)
    (hstep :
      mid.piece (.directive content ⟨line + Bytes.countNewlines text, offset + text.length,
      offset + text.length + content.length + 4⟩) = .ok next)
    (fragments : List Fragment) :
    (Fragment.place offset line (Fragment.ofText text ++ .directive content ::
      fragments)).foldlM
        piece b =
      (Fragment.place (offset + text.length + content.length + 4)
        (line + Bytes.countNewlines text) fragments).foldlM piece next := by
  rw [Fragment.place_directive text hline, foldlM_append_of_ok htext, foldlM_cons_of_ok hstep]

theorem steps_or_halts {content : Bytes}
    (hcontent : Bytes.NoPair Byte.closeBrace (content ++ [Byte.closeBrace])) (rest : Bytes)
    (b : Builder) (offset line : Nat) :
    (content ≠ [] ∧ Byte.newline ∉ content ∧ ∃ next,
      b.piece (.directive content ⟨line, offset, offset + content.length + 4⟩) = .ok next) ∨
    ∃ e, b.Halts offset line ((Fragment.directive content).source ++ rest) e := by
  cases hposition : content.idxOf? Byte.newline with
  | some position =>
      exact Or.inr ⟨_, Halts.newline rest hcontent hposition⟩
  | none =>
      have hline := List.idxOf?_eq_none_iff.mp hposition
      by_cases hne : content = []
      · subst hne
        exact Or.inr ⟨_, Halts.empty rest⟩
      · cases hstep : b.piece
          (.directive content ⟨line, offset, offset + content.length + 4⟩) with
        | error e =>
            exact Or.inr ⟨e, Halts.refused rest hcontent hne hline hstep⟩
        | ok next =>
            exact Or.inl ⟨hne, hline, next, rfl⟩

theorem ends_or_halts (source : Bytes) (b : Builder) (offset line : Nat) :
    (∃ fragments b', Fragment.Cuts source fragments ∧
      (Fragment.place offset line fragments).foldlM piece b = .ok b') ∨
    ∃ fragments left b' e, Fragment.Begins source fragments left ∧
      (Fragment.place offset line fragments).foldlM piece b = .ok b' ∧
      b'.Halts (offset + (fragments.flatMap Fragment.source).length)
        (line + Bytes.countNewlines (fragments.flatMap Fragment.source)) left e := by
  rcases Fragment.text_or_braces source with htext | ⟨text, behind, rfl, htext, hopen⟩ |
    ⟨text, content, rest, hsource, htext, hcontent⟩
  · rcases exists_foldlM_ofText source offset line b with ⟨span, hfold⟩
    exact Or.inl ⟨_, _, Fragment.Cuts.text htext, hfold⟩
  · rcases exists_foldlM_ofText text offset line b with ⟨span, hfold⟩
    right
    exact ⟨_, _, _, _, Fragment.Begins.text htext, hfold, Halts.unterminated hopen⟩
  · rcases exists_foldlM_ofText text offset line b with ⟨span, hfold⟩
    generalize b.addAll (Node.ofText text span) = mid at hfold
    rw [hsource]
    rcases steps_or_halts hcontent rest mid (offset + text.length)
      (line + Bytes.countNewlines text) with ⟨hne, hline, next, hstep⟩ | ⟨e, hhalts⟩
    · have hgo := foldlM_directive hline hfold hstep
      rcases ends_or_halts rest next (offset + text.length + content.length + 4)
        (line + Bytes.countNewlines text) with
        ⟨fragments, last, hcuts, hrest⟩ | ⟨fragments, left, last, e, hbegins, hrest, hhalts⟩
      · left
        refine ⟨_, last, Fragment.Cuts.directive htext hcontent hne hline hcuts, ?_⟩
        rw [hgo]
        exact hrest
      · right
        refine ⟨_, left, last, e,
          Fragment.Begins.directive htext hcontent hne hline hbegins, ?_, ?_⟩
        · rw [hgo]
          exact hrest
        · rw [Fragment.length_flatMap_directive,
            Fragment.countNewlines_flatMap_directive text hline]
          simp only [Nat.add_assoc] at hhalts ⊢
          exact hhalts
    · right
      refine ⟨_, _, mid, e, Fragment.Begins.text_directive htext content rest, hfold, ?_⟩
      rw [Fragment.flatMap_source_ofText]
      exact hhalts
termination_by source.length
decreasing_by
  rw [hsource, List.length_append, List.length_append, Fragment.length_directive]
  omega

end Builder

inductive Template.StopsAt (source : Bytes) : CompileError → Prop where
  | halted {fragments : List Fragment} {left : Bytes} {b : Builder} {e : CompileError} :
      Fragment.Begins source fragments left →
      (Fragment.place 0 1 fragments).foldlM Builder.piece {} = .ok b →
      b.Halts (fragments.flatMap Fragment.source).length
        (1 + Bytes.countNewlines (fragments.flatMap Fragment.source)) left e →
      StopsAt source e
  | unclosed {fragments : List Fragment} {b : Builder} {e : CompileError} :
      Fragment.Cuts source fragments →
      (Fragment.place 0 1 fragments).foldlM Builder.piece {} = .ok b →
      b.finish (1 + Bytes.countNewlines source) = .error e →
      StopsAt source e

theorem Fragment.Cuts.compile_eq {source : Bytes} {fragments : List Fragment} {b : Builder}
    (hcuts : Cuts source fragments)
    (hfold : (place 0 1 fragments).foldlM Builder.piece {} = .ok b) :
    Template.compile source = b.finish (1 + Bytes.countNewlines source) := by
  rw [Template.compile_eq_compileCut, hcuts.cutOn, Builder.compileCut, hfold]
  rfl

theorem Template.StopsAt.compile_eq {source : Bytes} {e : CompileError}
    (h : StopsAt source e) :
    compile source = .error e := by
  cases h with
  | halted hbegins hfold hhalts =>
      rw [compile_eq_compileCut, hbegins.cutOn, Builder.compileCut_prepend hfold, Nat.zero_add]
      exact hhalts.compileCut
  | unclosed hcuts hfold hfinish =>
      rw [hcuts.compile_eq hfold, hfinish]

theorem compile_eq_error_iff (source : Bytes) (e : CompileError) :
    Template.compile source = .error e ↔ Template.StopsAt source e := by
  constructor
  · intro h
    rcases Builder.ends_or_halts source {} 0 1 with
      ⟨fragments, b, hcuts, hfold⟩ | ⟨fragments, left, b, e', hbegins, hfold, hhalts⟩
    · rw [hcuts.compile_eq hfold] at h
      exact Template.StopsAt.unclosed hcuts hfold h
    · rw [Nat.zero_add] at hhalts
      have hstops := Template.StopsAt.halted hbegins hfold hhalts
      rw [hstops.compile_eq] at h
      cases h
      exact hstops
  · intro h
    exact h.compile_eq

end Stencil
