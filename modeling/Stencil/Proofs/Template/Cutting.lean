import Stencil.Template.Piece

/-!
# Cutting a source

The scanner passes over a source once and remembers where the current piece began.  This
module says what it finds, without offsets first: a source is cut at each leftmost pair of
opening braces and the first pair of closing braces behind it.  The offsets and lines of
the pieces are then those that the lengths of the pieces before them add up to.
-/

namespace Stencil

/-!
# Doubled bytes
-/

namespace Bytes

def NoPair (b : UInt8) (bytes : Bytes) : Prop :=
  ¬ [b, b] <:+: bytes

def endsIn (b : UInt8) (bytes : Bytes) : Bool :=
  bytes.getLast? == some b

theorem noPair_nil (b : UInt8) : NoPair b [] := by
  simp [NoPair]

theorem NoPair.of_append_left {b : UInt8} {front back : Bytes} (h : NoPair b (front ++ back)) :
    NoPair b front := by
  intro hinfix
  exact h (List.infix_append_of_infix_left hinfix)

theorem noPair_concat {b c : UInt8} {bytes : Bytes} :
    NoPair b (bytes ++ [c]) ↔ NoPair b bytes ∧ ¬ (c = b ∧ endsIn b bytes = true) := by
  have hsuffix : [b, b] <:+ bytes ++ [c] ↔ c = b ∧ endsIn b bytes = true := by
    rw [endsIn, beq_iff_eq, List.getLast?_eq_some_iff, List.suffix_iff_exists_append_eq]
    constructor
    · rintro ⟨front, hfront⟩
      have hsplit : (front ++ [b]) ++ [b] = bytes ++ [c] := by simpa using hfront
      rcases List.append_inj' hsplit rfl with ⟨hbytes, hlast⟩
      exact ⟨(List.singleton_inj.mp hlast).symm, front, hbytes.symm⟩
    · rintro ⟨rfl, front, rfl⟩
      exact ⟨front, by simp⟩
  rw [NoPair, List.infix_concat_iff, hsuffix, not_or, and_comm]
  rfl

theorem noPair_concat_of_notMem {b : UInt8} {bytes : Bytes} (h : b ∉ bytes) :
    NoPair b (bytes ++ [b]) := by
  rw [noPair_concat, endsIn, beq_iff_eq]
  constructor
  · intro hpair
    exact h (hpair.subset List.mem_cons_self)
  · intro hend
    exact h (List.mem_of_getLast? hend.right)

theorem endsIn_concat (b c : UInt8) (bytes : Bytes) : endsIn b (bytes ++ [c]) = (c == b) := by
  simp [endsIn]

theorem noPair_or_exists_first (b : UInt8) (bytes : Bytes) :
    NoPair b bytes ∨ ∃ front back, bytes = front ++ b :: b :: back ∧
      NoPair b (front ++ [b]) := by
  induction bytes with
  | nil =>
      exact Or.inl (noPair_nil b)
  | cons c rest ih =>
      by_cases hpair : [b, b] <+: c :: rest
      · right
        rcases hpair with ⟨back, hback⟩
        refine ⟨[], back, by simpa using hback.symm, ?_⟩
        intro hinfix
        have hlength := hinfix.length_le
        simp at hlength
      · rcases ih with hrest | ⟨front, back, hrest, hfront⟩
        · left
          intro hinfix
          exact (List.infix_cons_iff.mp hinfix).elim hpair hrest
        · right
          refine ⟨c :: front, back, by simp [hrest], ?_⟩
          intro hinfix
          rcases List.infix_cons_iff.mp hinfix with hprefix | hinfix
          · apply hpair
            rw [hrest]
            exact hprefix.trans ⟨b :: back, by simp⟩
          · exact hfront hinfix

theorem countNewlines_append (front back : Bytes) :
    countNewlines (front ++ back) = countNewlines front + countNewlines back := by
  simp [countNewlines]

end Bytes

namespace Piece

/-!
# Passing over bytes

Within a piece the scanner only keeps count of lines and offsets, and whether
the last byte was a brace.
-/

theorem cutFrom_text_pass (before run : Bytes)
    (h : Bytes.NoPair Byte.openBrace (before ++ run)) (start startLine : Nat)
    (bytes rest : Bytes) (line offset : Nat) :
    cutFrom (.text start startLine bytes (Bytes.endsIn Byte.openBrace before)) line offset
        (run ++ rest) =
      cutFrom (.text start startLine bytes (Bytes.endsIn Byte.openBrace (before ++ run)))
        (line + Bytes.countNewlines run) (offset + run.length) rest := by
  induction run generalizing before line offset with
  | nil =>
      simp [Bytes.countNewlines]
  | cons b run ih =>
      have hsplit : before ++ b :: run = (before ++ [b]) ++ run := by simp
      rw [hsplit] at h ⊢
      have hopen := (Bytes.noPair_concat.mp h.of_append_left).right
      have hstep := ih (before ++ [b]) h
      rw [Bytes.endsIn_concat] at hstep
      rw [List.cons_append, cutFrom]
      by_cases hnewline : b = Byte.newline
      · rw [if_pos hnewline]
        subst hnewline
        have hbrace : (Byte.newline == Byte.openBrace) = false := by decide
        rw [hbrace] at hstep
        rw [hstep]
        simp [Bytes.countNewlines, Nat.add_assoc, Nat.add_comm 1]
      · rw [if_neg hnewline, if_neg hopen, hstep]
        have hcount : Bytes.countNewlines (b :: run) = Bytes.countNewlines run := by
          simp [Bytes.countNewlines, hnewline]
        rw [hcount, List.length_cons, Nat.add_assoc, Nat.add_comm 1]

theorem cutFrom_directive_pass (before run : Bytes)
    (h : Bytes.NoPair Byte.closeBrace (before ++ run))
    (found : Nat) (bytes rest : Bytes) (line offset : Nat) :
    cutFrom (.directive found bytes (Bytes.endsIn Byte.closeBrace before)) line offset
        (run ++ rest) =
      cutFrom (.directive found bytes (Bytes.endsIn Byte.closeBrace (before ++ run)))
        line (offset + run.length) rest := by
  induction run generalizing before offset with
  | nil =>
      simp
  | cons b run ih =>
      have hsplit : before ++ b :: run = (before ++ [b]) ++ run := by simp
      rw [hsplit] at h ⊢
      have hopen := (Bytes.noPair_concat.mp h.of_append_left).right
      have hstep := ih (before ++ [b]) h
      rw [Bytes.endsIn_concat] at hstep
      rw [List.cons_append, cutFrom, if_neg hopen, hstep]
      rw [List.length_cons, Nat.add_assoc, Nat.add_comm 1]

/-!
# What the scanner finds next
-/

def cutOn (offset line : Nat) (source : Bytes) : Cut :=
  cutFrom (.text offset line source false) line offset source

theorem cut_eq_cutOn (source : Bytes) : cut source = cutOn 0 1 source := rfl

theorem cutOn_text {text : Bytes} (h : Bytes.NoPair Byte.openBrace text) (offset line : Nat) :
    cutOn offset line text =
      ⟨textRun text line offset (offset + text.length),
        .ok (line + Bytes.countNewlines text)⟩ := by
  have hpass := cutFrom_text_pass [] text h offset line text [] line offset
  rw [List.append_nil] at hpass
  rw [cutOn]
  exact hpass

theorem textRun_append (text more : Bytes) (line start : Nat) :
    textRun (text ++ more) line start (start + text.length) =
      textRun text line start (start + text.length) := by
  simp [textRun]

theorem cutOn_open {text : Bytes} (h : Bytes.NoPair Byte.openBrace (text ++ [Byte.openBrace]))
    (offset line : Nat) (rest : Bytes) :
    cutOn offset line (text ++ Byte.openBrace :: Byte.openBrace :: rest) =
      (cutFrom (.directive (offset + text.length) rest false)
          (line + Bytes.countNewlines text) (offset + text.length + 2) rest).prepend
        (textRun text line offset (offset + text.length)) := by
  have hsplit : text ++ Byte.openBrace :: Byte.openBrace :: rest =
      (text ++ [Byte.openBrace]) ++ Byte.openBrace :: rest := by
    simp
  have hpass := cutFrom_text_pass [] (text ++ [Byte.openBrace]) h offset line
    (text ++ Byte.openBrace :: Byte.openBrace :: rest) (Byte.openBrace :: rest) line offset
  rw [List.nil_append, Bytes.endsIn_concat, ← hsplit] at hpass
  have hcount : Bytes.countNewlines (text ++ [Byte.openBrace]) = Bytes.countNewlines text := by
    rw [Bytes.countNewlines_append]
    rfl
  have hlength : offset + (text ++ [Byte.openBrace]).length = offset + text.length + 1 := by
    simp [Nat.add_assoc]
  rw [cutOn]
  refine hpass.trans ?_
  rw [cutFrom, if_neg (by decide), if_pos (by simp), hcount, hlength, Nat.add_sub_cancel,
    textRun_append]

theorem cutFrom_unterminated {content : Bytes} (h : Bytes.NoPair Byte.closeBrace content)
    (found line offset : Nat) (bytes : Bytes) :
    cutFrom (.directive found bytes false) line offset content =
      .failed .unterminatedDirective ⟨line, found, found + 2⟩ := by
  have hpass := cutFrom_directive_pass [] content h found bytes [] line offset
  rw [List.append_nil] at hpass
  exact hpass

theorem cutFrom_close {content : Bytes}
    (h : Bytes.NoPair Byte.closeBrace (content ++ [Byte.closeBrace])) (found line : Nat)
    (rest : Bytes) :
    cutFrom (.directive found (content ++ Byte.closeBrace :: Byte.closeBrace ::
      rest) false) line
        (found + 2) (content ++ Byte.closeBrace :: Byte.closeBrace :: rest) =
      closeDirective content line found (found + content.length + 4)
        (cutOn (found + content.length + 4) line rest) := by
  have hsplit : content ++ Byte.closeBrace :: Byte.closeBrace :: rest =
      (content ++ [Byte.closeBrace]) ++ Byte.closeBrace :: rest := by
    simp
  have hpass := cutFrom_directive_pass [] (content ++ [Byte.closeBrace]) h found
    (content ++ Byte.closeBrace :: Byte.closeBrace :: rest) (Byte.closeBrace :: rest) line
    (found + 2)
  rw [List.nil_append, Bytes.endsIn_concat, ← hsplit] at hpass
  have hlength : found + 2 + (content ++ [Byte.closeBrace]).length + 1 =
      found + content.length + 4 := by
    simp
    omega
  refine hpass.trans ?_
  rw [cutFrom, if_pos (by simp), hlength, cutOn]
  unfold closeDirective
  have htake : (content ++ Byte.closeBrace :: Byte.closeBrace :: rest).take
      (found + content.length + 4 - 2 - (found + 2)) = content := by
    have hsub : found + content.length + 4 - 2 - (found + 2) = content.length := by omega
    rw [hsub, List.take_left']
    rfl
  have htake' : content.take (found + content.length + 4 - 2 - (found + 2)) = content := by
    apply List.take_of_length_le
    omega
  rw [htake, htake']

end Piece
end Stencil
