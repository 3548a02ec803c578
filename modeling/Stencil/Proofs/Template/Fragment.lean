import Stencil.Proofs.Except
import Stencil.Proofs.Template.Cutting
import Stencil.Template.Compile

/-!
# Fragments of a source

What a source is cut into, without positions.  The fragments of a source lie side
by side and make up the whole of it, so that the position of each follows from
the fragments before it.
-/

namespace Stencil

inductive Fragment where
  | text (bytes : Bytes)
  | directive (content : Bytes)
  deriving DecidableEq, Repr

namespace Fragment

def source : Fragment → Bytes
  | .text bytes => bytes
  | .directive content =>
    Byte.openBrace :: Byte.openBrace :: (content ++ [Byte.closeBrace, Byte.closeBrace])

def toPiece (span : Span) : Fragment → Piece
  | .text bytes => .text bytes span
  | .directive content => .directive content span

def ofText (bytes : Bytes) : List Fragment :=
  if bytes.isEmpty then [] else [.text bytes]

def place (offset line : Nat) : List Fragment → List Piece
  | [] => []
  | fragment :: rest =>
    fragment.toPiece ⟨line, offset, offset + fragment.source.length⟩ ::
      place (offset + fragment.source.length)
        (line + Bytes.countNewlines fragment.source) rest

/-- A source is cut from left to right, at each leftmost pair of opening braces and at the
first pair of closing braces behind it. -/
inductive Cuts : Bytes → List Fragment → Prop where
  | text {text : Bytes} :
      Bytes.NoPair Byte.openBrace text → Cuts text (ofText text)
  | directive {text content rest : Bytes} {fragments : List Fragment} :
      Bytes.NoPair Byte.openBrace (text ++ [Byte.openBrace]) →
      Bytes.NoPair Byte.closeBrace (content ++ [Byte.closeBrace]) →
      content ≠ [] → Byte.newline ∉ content → Cuts rest fragments →
      Cuts (text ++ ((Fragment.directive content).source ++ rest))
        (ofText text ++ .directive content :: fragments)

def Valid : Fragment → Prop
  | .text bytes => bytes ≠ []
  | .directive content =>
    Bytes.NoPair Byte.closeBrace (content ++ [Byte.closeBrace]) ∧ content ≠ [] ∧
      Byte.newline ∉ content

theorem length_directive (content : Bytes) :
    (Fragment.directive content).source.length = content.length + 4 := by
  simp [source]

theorem countNewlines_directive {content : Bytes} (h : Byte.newline ∉ content) :
    Bytes.countNewlines (Fragment.directive content).source = 0 := by
  have hbraces : Byte.newline ≠ Byte.openBrace ∧ Byte.newline ≠ Byte.closeBrace := by decide
  simp [Bytes.countNewlines, source, List.count_eq_zero, h, hbraces]

@[simp]
theorem flatMap_source_ofText (text : Bytes) : (ofText text).flatMap source = text := by
  cases text with
  | nil =>
      rfl
  | cons b text =>
      simp [ofText, source]

theorem Cuts.flatMap_source {bytes : Bytes} {fragments : List Fragment}
    (h : Cuts bytes fragments) :
    fragments.flatMap source = bytes := by
  induction h with
  | text _ =>
      exact flatMap_source_ofText _
  | directive _ _ _ _ _ ih =>
      simp [ih]

theorem valid_of_mem_ofText {text : Bytes} {fragment : Fragment} (h : fragment ∈ ofText text) :
    fragment.Valid := by
  cases text with
  | nil =>
      cases h
  | cons b text =>
      rw [List.mem_singleton.mp h]
      exact List.cons_ne_nil b text

theorem Cuts.valid {bytes : Bytes} {fragments : List Fragment} (h : Cuts bytes fragments) :
    ∀ fragment ∈ fragments, fragment.Valid := by
  induction h with
  | text _ =>
      intro fragment hmem
      exact valid_of_mem_ofText hmem
  | directive _ hcontent hne hline _ ih =>
      intro fragment hmem
      rcases List.mem_append.mp hmem with hmem | hmem
      · exact valid_of_mem_ofText hmem
      · rcases List.mem_cons.mp hmem with rfl | hmem
        · exact ⟨hcontent, hne, hline⟩
        · exact ih fragment hmem

/-!
# Positions
-/

theorem place_append (offset line : Nat) (front back : List Fragment) :
    place offset line (front ++ back) =
      place offset line front ++
        place (offset + (front.flatMap source).length)
          (line + Bytes.countNewlines (front.flatMap source)) back := by
  induction front generalizing offset line with
  | nil =>
      simp [place, Bytes.countNewlines]
  | cons fragment front ih =>
      simp [place, ih, Bytes.countNewlines_append, Nat.add_assoc]

theorem textRun_eq_place (text : Bytes) (offset line : Nat) :
    Piece.textRun text line offset (offset + text.length) =
      place offset line (ofText text) := by
  cases text with
  | nil =>
      simp [Piece.textRun, ofText, place]
  | cons b text =>
      simp [Piece.textRun, ofText, place, toPiece, source]

/-!
# The scanner
-/

theorem take_content (content : Bytes) (found : Nat) :
    content.take (found + content.length + 4 - 2 - (found + 2)) = content := by
  apply List.take_of_length_le
  omega

theorem closeDirective_of_valid {content : Bytes} (hne : content ≠ [])
    (hline : Byte.newline ∉ content) (line found : Nat) (rest : Cut) :
    Piece.closeDirective content line found (found + content.length + 4) rest =
      rest.prepend [.directive content ⟨line, found, found + content.length + 4⟩] := by
  have hempty : content.isEmpty = false := by simpa using hne
  simp only [Piece.closeDirective, take_content, List.idxOf?_eq_none_iff.mpr hline, hempty,
    Bool.false_eq_true, if_false]

theorem valid_of_closeDirective_ok {content : Bytes} {line found last : Nat} {rest : Cut}
    (h : (Piece.closeDirective content line found (found + content.length + 4) rest).ending =
      .ok last) :
    content ≠ [] ∧ Byte.newline ∉ content := by
  simp only [Piece.closeDirective, take_content] at h
  cases hindex : content.idxOf? Byte.newline with
  | some position =>
      rw [hindex] at h
      cases h
  | none =>
      rw [hindex] at h
      refine ⟨?_, List.idxOf?_eq_none_iff.mp hindex⟩
      rintro rfl
      cases h

theorem text_or_braces (bytes : Bytes) :
    Bytes.NoPair Byte.openBrace bytes ∨
      (∃ text behind, bytes = text ++ Byte.openBrace :: Byte.openBrace :: behind ∧
        Bytes.NoPair Byte.openBrace (text ++ [Byte.openBrace]) ∧
        Bytes.NoPair Byte.closeBrace behind) ∨
      ∃ text content rest, bytes = text ++ ((Fragment.directive content).source ++ rest) ∧
        Bytes.NoPair Byte.openBrace (text ++ [Byte.openBrace]) ∧
        Bytes.NoPair Byte.closeBrace (content ++ [Byte.closeBrace]) := by
  rcases Bytes.noPair_or_exists_first Byte.openBrace bytes with
    htext | ⟨text, behind, hsplit, htext⟩
  · exact Or.inl htext
  · right
    rcases Bytes.noPair_or_exists_first Byte.closeBrace behind with
      hopen | ⟨content, rest, hbehind, hcontent⟩
    · exact Or.inl ⟨text, behind, hsplit, htext, hopen⟩
    · right
      refine ⟨text, content, rest, ?_, htext, hcontent⟩
      simp [source, hsplit, hbehind]

end Fragment

theorem Cut.prepend_prepend (cut : Cut) (front back : List Piece) :
    (cut.prepend back).prepend front = cut.prepend (front ++ back) := by
  simp [prepend]

namespace Piece

theorem cutOn_braces (behind : Bytes) (offset line : Nat) :
    cutOn offset line (Byte.openBrace :: Byte.openBrace :: behind) =
      cutFrom (.directive offset behind false) line (offset + 2) behind := by
  have hopen : Bytes.NoPair Byte.openBrace ([] ++ [Byte.openBrace]) :=
    Bytes.noPair_concat_of_notMem List.not_mem_nil
  have hcut := cutOn_open hopen offset line behind
  rw [List.nil_append] at hcut
  simpa [textRun, Cut.prepend, Bytes.countNewlines] using hcut

theorem cutOn_text_braces {text : Bytes}
    (h : Bytes.NoPair Byte.openBrace (text ++ [Byte.openBrace])) (behind : Bytes)
    (offset line : Nat) :
    cutOn offset line (text ++ Byte.openBrace :: Byte.openBrace :: behind) =
      (cutOn (offset + text.length) (line + Bytes.countNewlines text)
        (Byte.openBrace :: Byte.openBrace :: behind)).prepend
          (Fragment.place offset line (Fragment.ofText text)) := by
  rw [cutOn_open h, cutOn_braces, Fragment.textRun_eq_place]

theorem cutOn_text_directive {text : Bytes}
    (h : Bytes.NoPair Byte.openBrace (text ++ [Byte.openBrace])) (content rest : Bytes)
    (offset line : Nat) :
    cutOn offset line (text ++ ((Fragment.directive content).source ++ rest)) =
      (cutOn (offset + text.length) (line + Bytes.countNewlines text)
        ((Fragment.directive content).source ++ rest)).prepend
          (Fragment.place offset line (Fragment.ofText text)) :=
  cutOn_text_braces h _ offset line

theorem cutOn_directive {content : Bytes}
    (h : Bytes.NoPair Byte.closeBrace (content ++ [Byte.closeBrace])) (rest : Bytes)
    (offset line : Nat) :
    cutOn offset line ((Fragment.directive content).source ++ rest) =
      closeDirective content line offset (offset + content.length + 4)
        (cutOn (offset + content.length + 4) line rest) := by
  have hsource : (Fragment.directive content).source ++ rest =
      Byte.openBrace :: Byte.openBrace ::
        (content ++ Byte.closeBrace :: Byte.closeBrace :: rest) := by
    simp [Fragment.source]
  rw [hsource, cutOn_braces, cutFrom_close h]

end Piece

namespace Fragment

theorem place_directive (text : Bytes) {content : Bytes} (h : Byte.newline ∉ content)
    (fragments : List Fragment) (offset line : Nat) :
    place offset line (ofText text ++ .directive content :: fragments) =
      place offset line (ofText text) ++
        .directive content ⟨line + Bytes.countNewlines text, offset + text.length,
          offset + text.length + content.length + 4⟩ ::
        place (offset + text.length + content.length + 4) (line + Bytes.countNewlines text)
          fragments := by
  rw [place_append, flatMap_source_ofText, place, countNewlines_directive h, length_directive]
  rfl

theorem Cuts.cutOn {bytes : Bytes} {fragments : List Fragment} (h : Cuts bytes fragments) :
    ∀ offset line, Piece.cutOn offset line bytes =
      ⟨place offset line fragments, .ok (line + Bytes.countNewlines bytes)⟩ := by
  induction h with
  | text htext =>
      intro offset line
      rw [Piece.cutOn_text htext, textRun_eq_place]
  | @directive text content rest fragments htext hcontent hne hline _ ih =>
      intro offset line
      have hcount : Bytes.countNewlines (text ++
          ((Fragment.directive content).source ++ rest)) =
          Bytes.countNewlines text + Bytes.countNewlines rest := by
        rw [Bytes.countNewlines_append, Bytes.countNewlines_append,
          countNewlines_directive hline, Nat.zero_add]
      rw [hcount, Piece.cutOn_text_directive htext, Piece.cutOn_directive hcontent,
        closeDirective_of_valid hne hline, ih, place_directive text hline]
      simp [Cut.prepend, Nat.add_assoc]

theorem exists_cuts_of_ok (bytes : Bytes) {offset line last : Nat}
    (h : (Piece.cutOn offset line bytes).ending = .ok last) :
    ∃ fragments, Cuts bytes fragments := by
  rcases text_or_braces bytes with htext | ⟨text, behind, hsplit, htext, hopen⟩ |
    ⟨text, content, rest, hsplit, htext, hcontent⟩
  · exact ⟨ofText bytes, Cuts.text htext⟩
  · rw [hsplit, Piece.cutOn_text_braces htext, Piece.cutOn_braces,
      Piece.cutFrom_unterminated hopen] at h
    cases h
  · rw [hsplit, Piece.cutOn_text_directive htext, Piece.cutOn_directive hcontent] at h
    rcases valid_of_closeDirective_ok h with ⟨hne, hline⟩
    rw [closeDirective_of_valid hne hline] at h
    rcases exists_cuts_of_ok rest h with ⟨fragments, hrest⟩
    rw [hsplit]
    exact ⟨_, Cuts.directive htext hcontent hne hline hrest⟩
termination_by bytes.length
decreasing_by
  rw [hsplit, List.length_append, List.length_append, length_directive]
  omega

end Fragment

/-!
# Compiling fragments
-/

theorem Template.compile_eq (source : Bytes) :
    compile source =
      (Piece.cut source).pieces.foldlM Builder.piece {} >>= fun b =>
        (Piece.cut source).ending >>= fun line => b.finish line := rfl

theorem Builder.finish_eq_ok_iff (b : Builder) (line : Nat) (t : Template) :
    b.finish line = .ok t ↔ b.stack = [] ∧ t = ⟨b.root.toList⟩ := by
  rcases b with ⟨root, _ | ⟨block, stack⟩⟩
  · constructor
    · intro h
      cases h
      exact ⟨rfl, rfl⟩
    · intro h
      rw [h.right]
      rfl
  · constructor
    · intro h
      cases h
    · intro h
      cases h.left

theorem Builder.finish_eq_error_iff (b : Builder) (line : Nat) (e : CompileError) :
    b.finish line = .error e ↔
      ∃ block rest, b.stack = block :: rest ∧
        e = ⟨.unclosedBlock block.kind block.span.line, line, block.span⟩ := by
  rcases b with ⟨root, _ | ⟨block, stack⟩⟩
  · constructor
    · intro h
      cases h
    · intro h
      rcases h with ⟨block, rest, hstack, _⟩
      cases hstack
  · constructor
    · intro h
      cases h
      exact ⟨block, stack, rfl, rfl⟩
    · intro h
      rcases h with ⟨block, rest, hstack, rfl⟩
      cases hstack
      rfl

/-- A source compiles when it can be cut, and its pieces leave no block open. -/
theorem compile_eq_ok_iff (bytes : Bytes) (t : Template) :
    Template.compile bytes = .ok t ↔
      ∃ fragments builder, Fragment.Cuts bytes fragments ∧
        (Fragment.place 0 1 fragments).foldlM Builder.piece {} = .ok builder ∧
        builder.stack = [] ∧ t = ⟨builder.root.toList⟩ := by
  constructor
  · intro h
    rw [Template.compile_eq] at h
    rcases (bind_eq_ok_iff _ _ _).mp h with ⟨builder, hfold, hend⟩
    rcases (bind_eq_ok_iff _ _ _).mp hend with ⟨last, hending, hfinish⟩
    rcases Fragment.exists_cuts_of_ok bytes hending with ⟨fragments, hcuts⟩
    have hcut := hcuts.cutOn 0 1
    rw [← Piece.cut_eq_cutOn] at hcut
    rw [hcut] at hfold
    exact ⟨fragments, builder, hcuts, hfold, (builder.finish_eq_ok_iff last t).mp hfinish⟩
  · rintro ⟨fragments, builder, hcuts, hfold, hfinish⟩
    have hcut := hcuts.cutOn 0 1
    rw [← Piece.cut_eq_cutOn] at hcut
    rw [Template.compile_eq, hcut, hfold]
    exact (builder.finish_eq_ok_iff _ t).mpr hfinish

end Stencil
