import Stencil.Proofs.Bytes.Slice
import Stencil.Proofs.Machine
import Stencil.Proofs.Template.Fragment

/-!
# Scanning by offsets

A source can also be compiled by a machine that knows it by offsets alone: where the
pending text starts, and from where on it is to be scanned.  It takes slices of the
source, and searches them for the next brace or newline and for the end of a directive.
No slice is out of range, the scan moves on with every step, and what it comes to is what
compiling the source comes to.
-/

namespace Stencil

/-!
# Searching
-/

namespace Bytes

def pairIdx? (b : UInt8) : Bytes → Option Nat
  | c :: d :: rest => if c = b ∧ d = b then some 0 else (pairIdx? b (d :: rest)).map (· + 1)
  | _ => none

theorem NoPair.head {b c d : UInt8} {rest : Bytes} (h : NoPair b (c :: d :: rest)) :
    ¬ (c = b ∧ d = b) := by
  rintro ⟨rfl, rfl⟩
  exact h (List.IsPrefix.isInfix ⟨rest, rfl⟩)

theorem NoPair.tail {b c : UInt8} {rest : Bytes} (h : NoPair b (c :: rest)) :
    NoPair b rest := by
  intro hinfix
  exact h (List.infix_cons hinfix)

theorem pairIdx?_eq_none {b : UInt8} {bytes : Bytes} (h : NoPair b bytes) :
    pairIdx? b bytes = none := by
  induction bytes with
  | nil =>
      rfl
  | cons c rest ih =>
      cases rest with
      | nil =>
          rfl
      | cons d rest =>
          rw [pairIdx?, if_neg h.head, ih h.tail]
          rfl

theorem pairIdx?_first {b : UInt8} {front : Bytes} (h : NoPair b (front ++ [b]))
    (back : Bytes) :
    pairIdx? b (front ++ b :: b :: back) = some front.length := by
  induction front with
  | nil =>
      rw [List.nil_append, pairIdx?, if_pos ⟨rfl, rfl⟩]
      rfl
  | cons c front ih =>
      have hrest := ih h.tail
      cases front with
      | nil =>
          rw [List.cons_append, List.nil_append, pairIdx?, if_neg h.head]
          rw [List.nil_append] at hrest
          rw [hrest]
          rfl
      | cons d front =>
          rw [List.cons_append, List.cons_append, pairIdx?, if_neg h.head]
          rw [List.cons_append] at hrest
          rw [hrest]
          rfl

end Bytes

def Piece.isMark (b : UInt8) : Bool :=
  b == Byte.newline || b == Byte.openBrace

theorem Piece.findIdx?_isMark {clean : Bytes} (h : ∀ c ∈ clean, isMark c = false) {b : UInt8}
    (hb : isMark b = true) (rest : Bytes) :
    (clean ++ b :: rest).findIdx? isMark = some clean.length := by
  have hclean : clean.findIdx? isMark = none := List.findIdx?_eq_none_iff.mpr h
  rw [List.findIdx?_append, hclean, List.findIdx?_cons, if_pos hb, Option.none_or,
    Option.map_some, Nat.zero_add]

theorem Piece.clean_or_exists_mark (bytes : Bytes) :
    (∀ c ∈ bytes, isMark c = false) ∨
      ∃ clean b rest, bytes = clean ++ b :: rest ∧ (∀ c ∈ clean, isMark c = false) ∧
        isMark b = true := by
  induction bytes with
  | nil =>
      exact Or.inl nofun
  | cons c rest ih =>
      cases hc : isMark c with
      | true =>
          exact Or.inr ⟨[], c, rest, rfl, nofun, hc⟩
      | false =>
          rcases ih with hclean | ⟨clean, b, back, rfl, hclean, hb⟩
          · exact Or.inl (List.forall_mem_cons.mpr ⟨hc, hclean⟩)
          · exact Or.inr ⟨c :: clean, b, back, rfl, List.forall_mem_cons.mpr ⟨hc, hclean⟩, hb⟩

/-!
# The machine
-/

def Builder.addText (b : Builder) (text : Bytes) (span : Span) : Builder :=
  if text.isEmpty then b else b.add (.text text span)

structure Scanner where
  line : Nat := 1
  builder : Builder := {}
  textStart : Nat := 0
  textLine : Nat := 1
  scan : Nat := 0

namespace Scanner

def close (b : Builder) (line found stop : Nat) (content : Bytes) :
    Move Scanner (Except CompileError Template) :=
  match content.idxOf? Byte.newline with
  | some newline =>
    .halt (found + 2 + newline)
      (.error (.inside ⟨line, found, found + 2 + newline⟩ .newlineInDirective))
  | none =>
    if content.isEmpty then .halt stop (.error (.inside ⟨line, found, stop⟩ .emptyDirective))
    else
      match b.piece (.directive content ⟨line, found, stop⟩) with
      | .error e => .halt stop (.error e)
      | .ok b => .onward ⟨line, b, stop, line, stop⟩

def directive (source : Bytes) (b : Builder) (line found : Nat) :
    Option (Move Scanner (Except CompileError Template)) := do
  let behind ← source.sliceFrom? (found + 2)
  match Bytes.pairIdx? Byte.closeBrace behind with
  | none =>
    some (.halt (found + 2) (.error (.inside ⟨line, found, found + 2⟩ .unterminatedDirective)))
  | some length =>
    let closed := found + 2 + length
    let content ← source.slice? (found + 2) closed
    some (close b line found (closed + 2) content)

def step (source : Bytes) (s : Scanner) :
    Option (Move Scanner (Except CompileError Template)) := do
  let ahead ← source.sliceFrom? s.scan
  match ahead.findIdx? Piece.isMark with
  | none =>
    let text ← source.sliceFrom? s.textStart
    let b := s.builder.addText text ⟨s.textLine, s.textStart, source.length⟩
    some (.halt source.length (b.finish s.line))
  | some length =>
    let found := s.scan + length
    let mark ← source[found]?
    if mark = Byte.newline then
      some (.onward { s with line := s.line + 1, scan := found + 1 })
    else if source[found + 1]? ≠ some Byte.openBrace then
      some (.onward { s with scan := found + 1 })
    else
      let text ← source.slice? s.textStart found
      let b := s.builder.addText text ⟨s.textLine, s.textStart, found⟩
      directive source b s.line found

end Scanner

def scanner (source : Bytes) : Machine Scanner (Except CompileError Template) where
  step := Scanner.step source
  position := Scanner.scan

/-!
# Building on
-/

namespace Builder

def complete (b : Builder) (cut : Cut) : Except CompileError Template :=
  cut.pieces.foldlM Builder.piece b >>= fun b => cut.ending >>= fun line => b.finish line

theorem complete_failed (b : Builder) (fault : CompileFault) (span : Span) :
    b.complete (.failed fault span) = .error (.inside span fault) := rfl

theorem foldlM_textRun (b : Builder) (bytes : Bytes) (line start stop : Nat) :
    (Piece.textRun bytes line start stop).foldlM Builder.piece b =
      .ok (b.addText (bytes.take (stop - start)) ⟨line, start, stop⟩) := by
  unfold Piece.textRun addText
  simp only
  split
  · rfl
  · rfl

theorem complete_prepend_textRun (b : Builder) (bytes : Bytes) (line start stop : Nat)
    (cut : Cut) :
    b.complete (cut.prepend (Piece.textRun bytes line start stop)) =
      (b.addText (bytes.take (stop - start)) ⟨line, start, stop⟩).complete cut := by
  rw [complete, Cut.prepend, foldlM_append_of_ok (b.foldlM_textRun bytes line start stop)]
  rfl

theorem complete_prepend_directive (b : Builder) (content : Bytes) (span : Span) (cut : Cut) :
    b.complete (cut.prepend [.directive content span]) =
      b.piece (.directive content span) >>= fun b => b.complete cut := by
  rw [complete, Cut.prepend, List.singleton_append, List.foldlM_cons]
  cases b.piece (.directive content span) <;> rfl

end Builder

namespace Piece

/-!
# Cutting on
-/

theorem cutFrom_clean {clean : Bytes} (h : ∀ c ∈ clean, isMark c = false)
    (start startLine : Nat) (bytes rest : Bytes) (line offset : Nat) :
    cutFrom (.text start startLine bytes false) line offset (clean ++ rest) =
      cutFrom (.text start startLine bytes false) line (offset + clean.length) rest := by
  induction clean generalizing offset with
  | nil =>
      rfl
  | cons c clean ih =>
      rw [List.forall_mem_cons] at h
      have hmark := h.left
      rw [isMark, Bool.or_eq_false_iff, beq_eq_false_iff_ne] at hmark
      rw [List.cons_append, cutFrom, if_neg hmark.left, if_neg (by simp),
        hmark.right, ih h.right, List.length_cons, Nat.add_assoc, Nat.add_comm 1]

theorem cutFrom_newline (start startLine : Nat) (bytes rest : Bytes) (line offset : Nat) :
    cutFrom (.text start startLine bytes false) line offset (Byte.newline :: rest) =
      cutFrom (.text start startLine bytes false) (line + 1) (offset + 1) rest := by
  rw [cutFrom, if_pos rfl]

theorem cutFrom_brace {rest : Bytes} (h : rest.head? ≠ some Byte.openBrace)
    (start startLine : Nat) (bytes : Bytes) (line offset : Nat) :
    cutFrom (.text start startLine bytes false) line offset (Byte.openBrace :: rest) =
      cutFrom (.text start startLine bytes false) line (offset + 1) rest := by
  have hstep : cutFrom (.text start startLine bytes false) line offset
      (Byte.openBrace :: rest) =
      cutFrom (.text start startLine bytes true) line (offset + 1) rest := by
    rw [cutFrom, if_neg (by decide), if_neg (by simp)]
    rfl
  rw [hstep]
  cases rest with
  | nil =>
      rfl
  | cons b rest =>
      have hb (braced : Bool) : ¬ (b = Byte.openBrace ∧ braced = true) :=
        fun heq => h (heq.left ▸ rfl)
      rw [cutFrom, cutFrom, if_neg (hb true), if_neg (hb false)]

theorem cutFrom_braces (start startLine : Nat) (bytes behind : Bytes) (line offset : Nat) :
    cutFrom (.text start startLine bytes false) line offset
        (Byte.openBrace :: Byte.openBrace :: behind) =
      (cutFrom (.directive offset behind false) line (offset + 2) behind).prepend
        (textRun bytes startLine start offset) := by
  rw [cutFrom, if_neg (by decide), if_neg (by simp), cutFrom, if_neg (by decide),
    if_pos (by simp), Nat.add_sub_cancel]

end Piece

/-!
# Every scan stays in range
-/

theorem Builder.complete_textRun (b : Builder) (bytes : Bytes) (line start stop last : Nat) :
    b.complete ⟨Piece.textRun bytes line start stop, .ok last⟩ =
      (b.addText (bytes.take (stop - start)) ⟨line, start, stop⟩).finish last := by
  rw [complete, foldlM_textRun]
  rfl

namespace Scanner

/-- Pending text and the rest remain of the source where the text starts, the text has
been scanned, and compiling the source comes down to building on from here. -/
structure At (source : Bytes) (s : Scanner) (pending rest : Bytes) : Prop where
  remains : source.Remains s.textStart (pending ++ rest)
  scan_eq : s.scan = s.textStart + pending.length
  complete : s.builder.complete
    (Piece.cutFrom (.text s.textStart s.textLine (pending ++ rest) false) s.line s.scan rest) =
      Template.compile source

def Within (source : Bytes) (s : Scanner) : Prop :=
  ∃ pending rest, At source s pending rest

theorem within_start (source : Bytes) : Within source {} :=
  ⟨[], source, source.remains_start, rfl, (Template.compile_eq source).symm⟩

namespace At

variable {source pending rest : Bytes} {s : Scanner}

theorem textStart_le (h : At source s pending rest) : s.textStart ≤ s.scan := by
  rw [h.scan_eq]
  exact Nat.le_add_right _ _

theorem ahead (h : At source s pending rest) : source.Remains s.scan rest := by
  rw [h.scan_eq]
  exact h.remains.behind

theorem slice?_pending (h : At source s pending rest) :
    source.slice? s.textStart s.scan = some pending := by
  rw [h.scan_eq]
  exact h.remains.slice?

theorem pass {line : Nat} (run : Bytes) (h : At source s pending (run ++ rest))
    (hpass : ∀ start startLine bytes,
      Piece.cutFrom (.text start startLine bytes false) s.line s.scan (run ++ rest) =
        Piece.cutFrom (.text start startLine bytes false) line (s.scan + run.length) rest) :
    At source { s with line := line, scan := s.scan + run.length } (pending ++ run) rest := by
  constructor
  · rw [List.append_assoc]
    exact h.remains
  · rw [List.length_append, ← Nat.add_assoc, ← h.scan_eq]
  · rw [← h.complete, hpass, List.append_assoc]

theorem finish (h : At source s pending []) :
    (s.builder.addText pending ⟨s.textLine, s.textStart, source.length⟩).finish s.line =
      Template.compile source := by
  have hlength : source.length = s.scan := h.ahead.length_eq
  have htake : pending.take (s.scan - s.textStart) = pending := by
    rw [h.scan_eq, Nat.add_sub_cancel_left, List.take_length]
  rw [hlength, ← h.complete, List.append_nil, Piece.cutFrom, Builder.complete_textRun, htake]

theorem openDirective {behind : Bytes}
    (h : At source s pending (Byte.openBrace :: Byte.openBrace :: behind)) :
    (s.builder.addText pending ⟨s.textLine, s.textStart, s.scan⟩).complete
        (Piece.cutFrom (.directive s.scan behind false) s.line (s.scan + 2) behind) =
      Template.compile source := by
  have htake : (pending ++ Byte.openBrace :: Byte.openBrace :: behind).take
      (s.scan - s.textStart) = pending := by
    rw [h.scan_eq, Nat.add_sub_cancel_left, List.take_left]
  rw [← h.complete, Piece.cutFrom_braces, Builder.complete_prepend_textRun, htake]

end At

theorem close_advances {source content rest : Bytes} {b : Builder} {line found : Nat}
    (hrest : source.Remains found ((Fragment.directive content).source ++ rest))
    (hcomplete :
      b.complete (Piece.closeDirective content line found (found + content.length + 4)
      (Piece.cutOn (found + content.length + 4) line rest)) = Template.compile source) :
    (close b line found (found + content.length + 4) content).Advances scan source.length
      (Within source) (Template.compile source) found := by
  have hnext := hrest.behind
  rw [Fragment.length_directive, ← Nat.add_assoc] at hnext
  have hstop := hnext.offset_le
  rw [Piece.closeDirective, Fragment.take_content] at hcomplete
  unfold close
  cases hindex : content.idxOf? Byte.newline with
  | some newline =>
      have hlt : newline < content.length :=
        (List.findIdx?_eq_some_iff_findIdx_eq.mp hindex).left
      simp only [hindex, Builder.complete_failed] at hcomplete
      simp only [hcomplete]
      exact .halt (by omega) (by omega)
  | none =>
      simp only [hindex] at hcomplete ⊢
      by_cases hempty : content.isEmpty = true
      · rw [if_pos hempty, Builder.complete_failed] at hcomplete
        rw [if_pos hempty, hcomplete]
        exact .halt (by omega) hstop
      · rw [if_neg hempty, Builder.complete_prepend_directive] at hcomplete
        rw [if_neg hempty]
        cases hpiece : b.piece
          (.directive content ⟨line, found, found + content.length + 4⟩) with
        | error e =>
            rw [hpiece] at hcomplete
            rw [← hcomplete]
            exact .halt (by omega) hstop
        | ok b =>
            rw [hpiece] at hcomplete
            have hat : At source ⟨line, b, found + content.length + 4, line,
                found + content.length + 4⟩
                [] rest := ⟨hnext, rfl, hcomplete⟩
            refine .onward ⟨_, _, hat⟩ ?_
            show found < found + content.length + 4
            omega

theorem directive_advances {source behind : Bytes} {b : Builder} {line found : Nat}
    (hrest : source.Remains found (Byte.openBrace :: Byte.openBrace :: behind))
    (hcomplete :
      b.complete (Piece.cutFrom (.directive found behind false) line (found + 2) behind) =
      Template.compile source) :
    ∃ move, directive source b line found = some move ∧
      move.Advances scan source.length (Within source) (Template.compile source) found := by
  have hbehind : source.Remains (found + 2) behind := hrest.next.next
  unfold directive
  simp only [hbehind.sliceFrom?, Option.bind_eq_bind, Option.bind_some]
  rcases Bytes.noPair_or_exists_first Byte.closeBrace behind with
    hopen | ⟨content, rest, rfl, hcontent⟩
  · -- the directive has no end
    rw [Piece.cutFrom_unterminated hopen, Builder.complete_failed] at hcomplete
    rw [Bytes.pairIdx?_eq_none hopen, hcomplete]
    exact ⟨_, rfl, .halt (Nat.le_add_right found 2) hbehind.offset_le⟩
  · have hclosed : found + 2 + content.length + 2 = found + content.length + 4 := by omega
    have hsource : Byte.openBrace :: Byte.openBrace ::
        (content ++ Byte.closeBrace :: Byte.closeBrace :: rest) =
          (Fragment.directive content).source ++ rest := by
      rw [Fragment.source, List.cons_append, List.cons_append, List.append_assoc]
      rfl
    rw [hsource] at hrest
    rw [Piece.cutFrom_close hcontent] at hcomplete
    rw [Bytes.pairIdx?_first hcontent]
    simp only [hbehind.slice?, Option.bind_some, hclosed]
    exact ⟨_, rfl, close_advances hrest hcomplete⟩

/-- From anywhere within the source the machine moves on, or comes to what
the source compiles to. -/
theorem step_advances (source : Bytes) (s : Scanner) (h : Within source s) :
    (scanner source).Advances source.length (Within source) (Template.compile source) s := by
  show ∃ move, step source s = some move ∧
    move.Advances scan source.length (Within source) (Template.compile source) s.scan
  rcases h with ⟨pending, rest, h⟩
  unfold step
  simp only [h.ahead.sliceFrom?, Option.bind_eq_bind, Option.bind_some]
  rcases Piece.clean_or_exists_mark rest with hclean | ⟨clean, mark, back, rfl, hclean, hmark⟩
  · -- no mark is left
    have hfind : rest.findIdx? Piece.isMark = none := List.findIdx?_eq_none_iff.mpr hclean
    have htext := h.remains.sliceFrom?
    have hle := h.ahead.offset_le
    rw [← List.append_nil rest] at h
    have hend := (h.pass _ fun _ _ _ => Piece.cutFrom_clean hclean _ _ _ [] _ _).finish
    simp only [hfind, htext, Option.bind_some, hend]
    exact ⟨_, rfl, .halt hle (Nat.le_refl _)⟩
  · have hat := h.pass _ fun _ _ _ => Piece.cutFrom_clean hclean _ _ _ (mark :: back) _ _
    have hle : s.scan ≤ s.scan + clean.length := Nat.le_add_right _ _
    simp only [Piece.findIdx?_isMark hclean hmark back, hat.ahead.getElem?,
      hat.ahead.next.getElem?, List.head?_cons, Option.bind_some]
    by_cases hnewline : mark = Byte.newline
    · subst hnewline
      rw [if_pos rfl]
      have hpass := hat.pass [Byte.newline] fun _ _ _ => Piece.cutFrom_newline _ _ _ _ _ _
      exact ⟨_, rfl, .onward ⟨_, _, hpass⟩ (Nat.lt_succ_of_le hle)⟩
    · have hbrace : mark = Byte.openBrace := by
        simpa [Piece.isMark, hnewline] using hmark
      subst hbrace
      rw [if_neg hnewline]
      by_cases hlone : back.head? = some Byte.openBrace
      · -- a directive begins
        rcases List.head?_eq_some_iff.mp hlone with ⟨behind, rfl⟩
        rcases directive_advances hat.ahead hat.openDirective with ⟨move, hmove, hadvances⟩
        rw [if_neg (not_not_intro hlone), hat.slice?_pending, Option.bind_some]
        exact ⟨move, hmove, hadvances.of_le hle⟩
      · rw [if_pos hlone]
        have hpass :=
          hat.pass [Byte.openBrace] fun _ _ _ => Piece.cutFrom_brace hlone _ _ _ _ _
        exact ⟨_, rfl, .onward ⟨_, _, hpass⟩ (Nat.lt_succ_of_le hle)⟩

theorem runsWithin (source : Bytes) :
    (scanner source).RunsWithin source.length {} (Template.compile source) := by
  apply Machine.runsWithin (Within source)
  · rintro s ⟨pending, rest, h⟩
    exact h.ahead.offset_le
  · exact step_advances source
  · exact within_start source

/-- Behind a brace at the end of the source there is nothing, not even to look at. -/
example : (scanner [Byte.openBrace]).step {} = some (.onward { scan := 1 }) := rfl

theorem textStart_le_of_reaches {source : Bytes} {s : Scanner}
    (h : (scanner source).Reaches {} s) :
    s.textStart ≤ s.scan := by
  rcases h.invariant (step_advances source) (within_start source) with ⟨pending, rest, hat⟩
  exact hat.textStart_le

end Scanner
end Stencil
