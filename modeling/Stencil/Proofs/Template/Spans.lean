import Stencil.Proofs.Bytes.Seam
import Stencil.Proofs.Template.Heads

/-!
# Spans

The scanner cuts a source beside braces and newlines only, and all spans that appear
later, in nodes and in errors, are spans of pieces.
-/

namespace Stencil

open Utf8 (Seam)

/-- A stretch of a source between two seams, with the line on which it begins. -/
inductive Span.Between (source : Bytes) : Span → Prop where
  | intro {before middle behind : Bytes} :
      source = before ++ (middle ++ behind) → Seam before (middle ++ behind) →
      Seam (before ++ middle) behind →
      Between source
        ⟨1 + Bytes.countNewlines before, before.length, before.length + middle.length⟩

/-!
# Pieces
-/

namespace CompileFault

def IsInside : CompileFault → Prop
  | .unclosedBlock _ _ => False
  | _ => True

end CompileFault

namespace Piece

def span : Piece → Span
  | .text _ span => span
  | .directive _ span => span

end Piece

def CompileError.InsideOf (P : Span → Prop) (e : CompileError) : Prop :=
  ∃ span fault, e = .inside span fault ∧ P span ∧ fault.IsInside

namespace Cut

structure Scans (cut : Cut) (source : Bytes) : Prop where
  pieces : ∀ piece ∈ cut.pieces, piece.span.Between source
  last : ∀ {line : Nat}, cut.ending = .ok line → line = 1 + Bytes.countNewlines source
  error : ∀ {e : CompileError}, cut.ending = .error e → e.InsideOf (Span.Between source)

theorem Scans.prepend {cut : Cut} {source : Bytes} {pieces : List Piece} (h : cut.Scans source)
    (hpieces : ∀ piece ∈ pieces, piece.span.Between source) :
    (cut.prepend pieces).Scans source := by
  constructor
  · exact List.forall_mem_append.mpr ⟨hpieces, h.pieces⟩
  · exact h.last
  · exact h.error

theorem scans_failed {source : Bytes} {span : Span} {fault : CompileFault}
    (hspan : span.Between source) (hfault : fault.IsInside) :
    (failed fault span).Scans source := by
  constructor
  · intro piece hmem
    cases hmem
  · intro line h
    cases h
  · intro e h
    cases h
    exact ⟨span, fault, rfl, hspan, hfault⟩

end Cut

namespace Piece

theorem between_of_mem_textRun {before text behind : Bytes}
    (hbefore : ∀ rest, Seam before rest) (hbehind : ∀ front, Seam front behind) {piece : Piece}
    (h : piece ∈ textRun text (1 + Bytes.countNewlines before) before.length
      (before.length + text.length)) :
    piece.span.Between (before ++ (text ++ behind)) := by
  rw [Fragment.textRun_eq_place, Fragment.ofText] at h
  split at h
  · cases h
  · rcases List.mem_singleton.mp h with rfl
    exact Span.Between.intro rfl (hbefore _) (hbehind _)

theorem seam_openBrace (front back : Bytes) : Seam front (Byte.openBrace :: back) :=
  Seam.before front back (by decide)

theorem seam_closeBrace (front content back : Bytes) :
    Seam (front ++ (Fragment.directive content).source) back := by
  have hlast : front ++ (Fragment.directive content).source =
      (front ++ (Byte.openBrace :: Byte.openBrace :: (content ++ [Byte.closeBrace]))) ++
        [Byte.closeBrace] := by
    simp [Fragment.source]
  rw [hlast]
  exact Seam.behind _ back (by decide)

theorem between_directive (before content rest : Bytes) :
    Span.Between (before ++ ((Fragment.directive content).source ++ rest))
      ⟨1 + Bytes.countNewlines before, before.length, before.length + content.length + 4⟩ := by
  have hspan :=
    Span.Between.intro rfl (seam_openBrace before _) (seam_closeBrace before content rest)
  rw [Fragment.length_directive, ← Nat.add_assoc] at hspan
  exact hspan

theorem between_newline (before rest : Bytes) {content : Bytes} {position : Nat}
    (h : content.idxOf? Byte.newline = some position) :
    Span.Between (before ++ ((Fragment.directive content).source ++ rest))
      ⟨1 + Bytes.countNewlines before, before.length, before.length + 2 + position⟩ := by
  have hsplit : ∃ front back, content = front ++ Byte.newline :: back ∧
      front.length = position := by
    rcases List.idxOf?_eq_some_iff.mp h with ⟨hposition, hnewline, _⟩
    refine ⟨content.take position, content.drop (position + 1), ?_,
      List.length_take_of_le (Nat.le_of_lt hposition)⟩
    rw [← hnewline, ← List.drop_eq_getElem_cons hposition, List.take_append_drop]
  rcases hsplit with ⟨front, back, rfl, rfl⟩
  have hsource : (Fragment.directive (front ++ Byte.newline :: back)).source ++ rest =
      (Byte.openBrace :: Byte.openBrace :: front) ++
        Byte.newline :: (back ++ Byte.closeBrace :: Byte.closeBrace :: rest) := by
    simp [Fragment.source]
  have hlength : (Byte.openBrace :: Byte.openBrace :: front).length = 2 + front.length :=
    Nat.add_comm front.length 2
  rw [hsource, Nat.add_assoc, ← hlength]
  exact Span.Between.intro rfl (seam_openBrace before _) (Seam.before _ _ (by decide))

theorem between_unterminated (before content : Bytes) :
    Span.Between (before ++ Byte.openBrace :: Byte.openBrace :: content)
      ⟨1 + Bytes.countNewlines before, before.length, before.length + 2⟩ := by
  have hstop : Seam (before ++ [Byte.openBrace, Byte.openBrace]) content := by
    rw [List.append_cons]
    exact Seam.behind _ content (by decide)
  exact Span.Between.intro rfl (seam_openBrace before _) hstop

theorem scans_closeDirective (before content rest : Bytes) {cut : Cut}
    (hcut : Byte.newline ∉ content →
      cut.Scans (before ++ ((Fragment.directive content).source ++ rest))) :
    (closeDirective content (1 + Bytes.countNewlines before) before.length
      (before.length + content.length + 4) cut).Scans
        (before ++ ((Fragment.directive content).source ++ rest)) := by
  have hdirective := between_directive before content rest
  rw [closeDirective, Fragment.take_content]
  cases hindex : content.idxOf? Byte.newline with
  | some position =>
      exact Cut.scans_failed (between_newline before rest hindex) trivial
  | none =>
      have hcut := hcut (List.idxOf?_eq_none_iff.mp hindex)
      dsimp only
      split
      · exact Cut.scans_failed hdirective trivial
      · exact hcut.prepend (List.forall_mem_singleton.mpr hdirective)

theorem scans_unterminated (before : Bytes) {content : Bytes}
    (h : Bytes.NoPair Byte.closeBrace content) :
    (cutOn before.length (1 + Bytes.countNewlines before)
      (Byte.openBrace :: Byte.openBrace :: content)).Scans
        (before ++ Byte.openBrace :: Byte.openBrace :: content) := by
  rw [cutOn_braces, cutFrom_unterminated h]
  exact Cut.scans_failed (between_unterminated before content) trivial

/-- A piece begins where no character has been torn apart, and the
scanner goes on from there. -/
theorem scans_cutOn (before rest : Bytes) (hbefore : ∀ behind, Seam before behind) :
    (cutOn before.length (1 + Bytes.countNewlines before) rest).Scans (before ++ rest) := by
  have hline : ∀ text, 1 + Bytes.countNewlines before + Bytes.countNewlines text =
      1 + Bytes.countNewlines (before ++ text) := by
    intro text
    rw [Bytes.countNewlines_append, Nat.add_assoc]
  rcases Fragment.text_or_braces rest with htext | ⟨text, behind, hsplit, htext, hopen⟩ |
    ⟨text, content, after, hsplit, htext, hcontent⟩
  · rw [cutOn_text htext]
    constructor
    · intro piece hmem
      have hpiece := between_of_mem_textRun hbefore Seam.stop hmem
      rw [List.append_nil] at hpiece
      exact hpiece
    · intro line h
      cases h
      exact hline rest
    · intro e h
      cases h
  · rw [hsplit, cutOn_text_braces htext, ← Fragment.textRun_eq_place]
    refine Cut.Scans.prepend ?_ fun piece =>
      between_of_mem_textRun hbefore (fun front => seam_openBrace front _)
    rw [hline, ← List.length_append, ← List.append_assoc]
    exact scans_unterminated (before ++ text) hopen
  · rw [hsplit, cutOn_text_directive htext, cutOn_directive hcontent,
      ← Fragment.textRun_eq_place]
    refine Cut.Scans.prepend ?_ fun piece =>
      between_of_mem_textRun hbefore (fun front => seam_openBrace front _)
    rw [hline, ← List.length_append, ← List.append_assoc]
    apply scans_closeDirective
    intro hnewline
    -- The text has been counted, and no newline is missed in a directive that has none.
    have hlength : (before ++ text ++ (Fragment.directive content).source).length =
        (before ++ text).length + content.length + 4 := by
      rw [List.length_append, Fragment.length_directive, Nat.add_assoc]
    have hafter := scans_cutOn (before ++ text ++ (Fragment.directive content).source) after
      (seam_closeBrace _ content)
    rw [Bytes.countNewlines_append, Fragment.countNewlines_directive hnewline, Nat.add_zero,
      hlength, List.append_assoc (before ++ text)] at hafter
    exact hafter
termination_by rest.length
decreasing_by
  rw [hsplit, List.length_append, List.length_append, Fragment.length_directive]
  omega

end Piece

theorem scans_cut (source : Bytes) : (Piece.cut source).Scans source :=
  Piece.scans_cutOn [] source Seam.start

/-!
# Faults of directives
-/

namespace Directive

theorem isInside_of_read {content : Bytes} {fault : CompileFault}
    (h : read content = .error fault) :
    fault.IsInside := by
  rcases fault_of_read h with rfl | rfl
  · trivial
  · trivial

theorem span_of_mem_heads {d : Directive} {span : Span} {node : Node}
    (h : node ∈ d.heads span) :
    node.span = span := by
  cases d with
  | comment =>
      cases h
  | continuation word =>
      cases h
  | _ =>
      rcases List.mem_singleton.mp h with rfl
      rfl

end Directive

namespace Builder

theorem isInside_of_close {b : Builder} {word : Continuation} {fault : CompileFault}
    (h : b.close word = .error fault) : fault.IsInside := by
  unfold close at h
  split at h
  · cases h
    trivial
  · split at h
    · cases h
    · cases h
      trivial

theorem isInside_of_otherwise {b : Builder} {fault : CompileFault}
    (h : b.otherwise = .error fault) :
    fault.IsInside := by
  unfold otherwise at h
  split at h
  · cases h
    trivial
  · cases h
  · cases h
    trivial

theorem isInside_of_directive {b : Builder} {span : Span} {d : Directive}
    {fault : CompileFault} (h : b.directive span d = .error fault) : fault.IsInside := by
  cases d with
  | continuation word =>
      cases word with
      | otherwise =>
          exact isInside_of_otherwise h
      | endCond =>
          exact isInside_of_close h
      | endLoop =>
          exact isInside_of_close h
  | _ =>
      cases h

/-!
# Spans of what has been compiled
-/

variable {P : Span → Prop}

theorem forall_heads_of_piece {b b' : Builder} {piece : Piece}
    (h : ∀ node ∈ b.heads, P node.span) (hpiece : P piece.span)
    (hstep : b.piece piece = .ok b') :
    ∀ node ∈ b'.heads, P node.span := by
  cases piece with
  | text bytes span =>
      cases hstep
      rw [heads_add, List.forall_mem_append]
      exact ⟨h, List.forall_mem_singleton.mpr hpiece⟩
  | directive content span =>
      rcases (bind_eq_ok_iff _ _ _).mp ((mapError_eq_ok_iff _ _ _).mp hstep) with
        ⟨d, _, hdirective⟩
      rw [heads_directive hdirective, List.forall_mem_append]
      refine ⟨h, fun node hmem => ?_⟩
      rw [Directive.span_of_mem_heads hmem]
      exact hpiece

theorem insideOf_of_piece {b : Builder} {piece : Piece} {e : CompileError}
    (hpiece : P piece.span) (hstep : b.piece piece = .error e) : e.InsideOf P := by
  cases piece with
  | text bytes span =>
      cases hstep
  | directive content span =>
      rcases (mapError_eq_error_iff _ _ _).mp hstep with ⟨fault, hfault, rfl⟩
      rcases (bind_eq_error_iff _ _ _).mp hfault with hread | ⟨d, _, hdirective⟩
      · exact ⟨span, fault, rfl, hpiece, Directive.isInside_of_read hread⟩
      · exact ⟨span, fault, rfl, hpiece, isInside_of_directive hdirective⟩

theorem forall_heads_of_foldlM {b b' : Builder} {pieces : List Piece}
    (h : ∀ node ∈ b.heads, P node.span) (hpieces : ∀ piece ∈ pieces, P piece.span)
    (hfold : pieces.foldlM Builder.piece b = .ok b') : ∀ node ∈ b'.heads, P node.span := by
  induction pieces generalizing b with
  | nil =>
      cases hfold
      exact h
  | cons piece rest ih =>
      rcases (foldlM_cons_eq_ok_iff _ _ _ _).mp hfold with ⟨next, hstep, hrest⟩
      rw [List.forall_mem_cons] at hpieces
      exact ih (forall_heads_of_piece h hpieces.left hstep) hpieces.right hrest

theorem insideOf_of_foldlM {b : Builder} {pieces : List Piece} {e : CompileError}
    (hpieces : ∀ piece ∈ pieces, P piece.span)
    (hfold : pieces.foldlM Builder.piece b = .error e) : e.InsideOf P := by
  induction pieces generalizing b with
  | nil =>
      cases hfold
  | cons piece rest ih =>
      rw [List.forall_mem_cons] at hpieces
      rcases (foldlM_cons_eq_error_iff _ _ _ _).mp hfold with hstep | ⟨next, _, hrest⟩
      · exact insideOf_of_piece hpieces.left hstep
      · exact ih hpieces.right hrest

theorem exists_head_of_mem_stack {b : Builder} {block : OpenBlock} (h : block ∈ b.stack) :
    ∃ node ∈ b.heads, node.span = block.span := by
  have hheads : ∃ node ∈ block.heads, node.span = block.span := by
    cases block with
    | cond condition thenBranch elseBranch span =>
        exact ⟨_, List.mem_cons_self, rfl⟩
    | loop var iterable body span =>
        exact ⟨_, List.mem_cons_self, rfl⟩
  rcases hheads with ⟨node, hmem, hspan⟩
  refine ⟨node, List.mem_append_right _ ?_, hspan⟩
  exact List.mem_flatMap.mpr ⟨block, List.mem_reverse.mpr h, hmem⟩

theorem forall_outline_of_finish {b : Builder} {line : Nat} {t : Template}
    (h : ∀ node ∈ b.heads, P node.span) (hfinish : b.finish line = .ok t) :
    ∀ entry ∈ t.outline, P entry.2.2.span := by
  rcases (b.finish_eq_ok_iff line t).mp hfinish with ⟨_, rfl⟩
  intro entry hentry
  have hhead : entry.2.2.head ∈ Node.allHeads b.root.toList := by
    rw [← Node.map_head_outlineAll 0 .root]
    exact List.mem_map_of_mem hentry
  rw [← Node.head_span]
  exact h _ (List.mem_append_left _ hhead)

theorem exists_unclosed_of_finish {b : Builder} {line : Nat} {e : CompileError}
    (h : ∀ node ∈ b.heads, P node.span) (hfinish : b.finish line = .error e) :
    ∃ kind span, P span ∧ e = ⟨.unclosedBlock kind span.line, line, span⟩ := by
  rcases (b.finish_eq_error_iff line e).mp hfinish with ⟨block, rest, hstack, rfl⟩
  have hmem : block ∈ b.stack := by
    rw [hstack]
    exact List.mem_cons_self
  rcases exists_head_of_mem_stack hmem with ⟨node, hnode, hspan⟩
  refine ⟨block.kind, block.span, ?_, rfl⟩
  rw [← hspan]
  exact h node hnode

end Builder

theorem between_of_outline {source : Bytes} {t : Template}
    (h : Template.compile source = .ok t) :
    ∀ entry ∈ t.outline, entry.2.2.span.Between source := by
  rw [Template.compile_eq] at h
  rcases (bind_eq_ok_iff _ _ _).mp h with ⟨b, hfold, hend⟩
  rcases (bind_eq_ok_iff _ _ _).mp hend with ⟨line, _, hfinish⟩
  have hheads := Builder.forall_heads_of_foldlM nofun (scans_cut source).pieces hfold
  exact Builder.forall_outline_of_finish hheads hfinish

theorem between_of_error {source : Bytes} {e : CompileError}
    (h : Template.compile source = .error e) :
    e.InsideOf (Span.Between source) ∨
      ∃ kind span, Span.Between source span ∧
        e = ⟨.unclosedBlock kind span.line, 1 + Bytes.countNewlines source, span⟩ := by
  rw [Template.compile_eq] at h
  rcases (bind_eq_error_iff _ _ _).mp h with hfold | ⟨b, hfold, hend⟩
  · exact Or.inl (Builder.insideOf_of_foldlM (scans_cut source).pieces hfold)
  · rcases (bind_eq_error_iff _ _ _).mp hend with hending | ⟨line, hline, hfinish⟩
    · exact Or.inl ((scans_cut source).error hending)
    · have hheads := Builder.forall_heads_of_foldlM nofun (scans_cut source).pieces hfold
      rw [← (scans_cut source).last hline]
      exact Or.inr (Builder.exists_unclosed_of_finish hheads hfinish)

theorem CompileError.span_between {source : Bytes} {e : CompileError}
    (h : Template.compile source = .error e) : e.span.Between source := by
  rcases between_of_error h with ⟨span, fault, rfl, hspan, _⟩ | ⟨kind, span, hspan, rfl⟩
  · exact hspan
  · exact hspan

end Stencil
