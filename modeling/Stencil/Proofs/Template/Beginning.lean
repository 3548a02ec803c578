import Stencil.Proofs.Template.Fragment

/-!
# Sources that have been cut in part

The scanner cuts a source up to a pair of opening braces before it looks at what is behind
them.  So far the fragments are those of the part in front by itself, and whatever follows
is cut as it would be in that place.
-/

namespace Stencil

namespace Fragment

/-!
# Fragments in front of braces
-/

/-- The fragments that a source is cut into up to a pair of opening braces, and what is
left of the source from these on. -/
inductive Begins : Bytes → List Fragment → Bytes → Prop where
  | text {text behind : Bytes} :
      Bytes.NoPair Byte.openBrace (text ++ [Byte.openBrace]) →
      Begins (text ++ Byte.openBrace :: Byte.openBrace :: behind) (ofText text)
        (Byte.openBrace :: Byte.openBrace :: behind)
  | directive {text content rest left : Bytes} {fragments : List Fragment} :
      Bytes.NoPair Byte.openBrace (text ++ [Byte.openBrace]) →
      Bytes.NoPair Byte.closeBrace (content ++ [Byte.closeBrace]) →
      content ≠ [] → Byte.newline ∉ content → Begins rest fragments left →
      Begins (text ++ ((Fragment.directive content).source ++ rest))
        (ofText text ++ .directive content :: fragments) left

namespace Begins

theorem text_directive {text : Bytes}
    (htext : Bytes.NoPair Byte.openBrace (text ++ [Byte.openBrace])) (content rest : Bytes) :
    Begins (text ++ ((Fragment.directive content).source ++ rest)) (ofText text)
      ((Fragment.directive content).source ++ rest) :=
  Begins.text htext

theorem eq_append {bytes left : Bytes} {fragments : List Fragment}
    (h : Begins bytes fragments left) :
    bytes = fragments.flatMap source ++ left := by
  induction h with
  | text _ =>
      rw [flatMap_source_ofText]
  | directive _ _ _ _ _ ih =>
      simp [ih]

theorem cuts {bytes left : Bytes} {fragments : List Fragment}
    (h : Begins bytes fragments left) :
    Cuts (fragments.flatMap source) fragments := by
  induction h with
  | text htext =>
      rw [flatMap_source_ofText]
      exact Cuts.text htext.of_append_left
  | directive htext hcontent hne hline _ ih =>
      rw [List.flatMap_append, flatMap_source_ofText, List.flatMap_cons]
      exact Cuts.directive htext hcontent hne hline ih

theorem append {bytes left : Bytes} {fragments : List Fragment}
    (h : Begins bytes fragments left) (more : Bytes)
    : Begins (bytes ++ more) fragments (left ++ more) := by
  induction h with
  | text htext =>
      rw [List.append_assoc]
      exact text htext
  | directive htext hcontent hne hline _ ih =>
      rw [List.append_assoc, List.append_assoc]
      exact directive htext hcontent hne hline ih

end Begins

theorem directive_notMem_ofText (content text : Bytes) : .directive content ∉ ofText text := by
  intro h
  rw [ofText] at h
  split at h
  · cases h
  · cases List.mem_singleton.mp h

theorem Cuts.begins {bytes : Bytes} {fragments : List Fragment} (h : Cuts bytes fragments)
    {front back : List Fragment} {content : Bytes}
    (hsplit : fragments = front ++ .directive content :: back) :
    Begins bytes front ((Fragment.directive content).source ++ back.flatMap source) := by
  induction h generalizing front with
  | text _ =>
      have hmem : Fragment.directive content ∈ front ++ .directive content :: back := by
        simp
      rw [← hsplit] at hmem
      exact absurd hmem (directive_notMem_ofText _ _)
  | @directive text other rest fragments htext hother hne hline hrest ih =>
      rcases List.append_eq_append_iff.mp hsplit with ⟨more, rfl, hmore⟩
        | ⟨more, hfront, hmore⟩
      · cases more with
        | nil =>
            cases hmore
            rw [List.append_nil, hrest.flatMap_source]
            exact Begins.text_directive htext content rest
        | cons fragment more =>
            cases hmore
            exact Begins.directive htext hother hne hline (ih rfl)
      · cases more with
        | nil =>
            cases hmore
            rw [List.append_nil] at hfront
            rw [← hfront, hrest.flatMap_source]
            exact Begins.text_directive htext content rest
        | cons fragment more =>
            cases hmore
            have hmem : Fragment.directive content ∈ front ++ .directive content :: more := by
              simp
            rw [← hfront] at hmem
            exact absurd hmem (directive_notMem_ofText _ _)

/-!
# Positions behind a directive
-/

theorem length_flatMap_directive (text content : Bytes) (fragments : List Fragment) :
    ((ofText text ++ .directive content :: fragments).flatMap source).length =
      text.length + (content.length + 4) + (fragments.flatMap source).length := by
  rw [List.flatMap_append, flatMap_source_ofText, List.flatMap_cons, List.length_append,
    List.length_append, length_directive, ← Nat.add_assoc]

theorem countNewlines_flatMap_directive (text : Bytes) {content : Bytes}
    (h : Byte.newline ∉ content) (fragments : List Fragment) :
    Bytes.countNewlines ((ofText text ++ .directive content :: fragments).flatMap source) =
      Bytes.countNewlines text + Bytes.countNewlines (fragments.flatMap source) := by
  rw [List.flatMap_append, flatMap_source_ofText, List.flatMap_cons,
    Bytes.countNewlines_append,
    Bytes.countNewlines_append, countNewlines_directive h, Nat.zero_add]

theorem Begins.cutOn {bytes left : Bytes} {fragments : List Fragment}
    (h : Begins bytes fragments left) (offset line : Nat) :
    Piece.cutOn offset line bytes =
      (Piece.cutOn (offset + (fragments.flatMap source).length)
        (line + Bytes.countNewlines (fragments.flatMap source)) left).prepend
          (place offset line fragments) := by
  induction h generalizing offset line with
  | text htext =>
      rw [Piece.cutOn_text_braces htext, flatMap_source_ofText]
  | @directive text content rest left fragments htext hcontent hne hline _ ih =>
      rw [Piece.cutOn_text_directive htext, Piece.cutOn_directive hcontent,
        closeDirective_of_valid hne hline, ih,
        place_directive text hline, length_flatMap_directive,
        countNewlines_flatMap_directive text hline, Cut.prepend_prepend, Cut.prepend_prepend]
      simp only [List.append_assoc, List.singleton_append, Nat.add_assoc]

end Fragment

end Stencil
