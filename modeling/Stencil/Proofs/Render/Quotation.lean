import Mathlib.Data.List.SplitBy
import Stencil.Proofs.Render.Composition
import Stencil.Proofs.Template.Completeness
import Stencil.Standard

/-!
# Quoting

Any byte string can be written by a template.  All that needs care is a run of two or
more opening braces, which would begin a directive; it is put between double braces,
where it stands for itself.
-/

namespace Stencil

namespace Template

def bothOpen (a b : UInt8) : Bool :=
  a == Byte.openBrace && b == Byte.openBrace

def quoteRun (run : Bytes) : Bytes :=
  if run.length < 2 then run
  else Byte.openBrace :: Byte.openBrace :: (run ++ [Byte.closeBrace, Byte.closeBrace])

/-- With each maximal run of two or more opening braces between double braces; other bytes
stay as they are. -/
def quote (bytes : Bytes) : Bytes :=
  (bytes.splitBy bothOpen).flatMap quoteRun

/-!
# Runs of braces
-/

theorem bothOpen_eq_true_iff (a b : UInt8) :
    bothOpen a b = true ↔ a = Byte.openBrace ∧ b = Byte.openBrace := by
  rw [bothOpen, Bool.and_eq_true, beq_iff_eq, beq_iff_eq]

theorem quote_append {front back : Bytes}
    (hseam : ¬ (Bytes.endsIn Byte.openBrace front = true ∧ back.head? = some Byte.openBrace)) :
    quote (front ++ back) = quote front ++ quote back := by
  rw [quote, List.splitBy_append, List.flatMap_append]
  · rfl
  · intro a ha b hb
    rw [← Bool.not_eq_true, bothOpen_eq_true_iff]
    intro h
    rw [h.left] at ha
    rw [h.right] at hb
    exact hseam ⟨(Bytes.endsIn_iff _ _).mpr ha, hb⟩

theorem quote_of_noPair {text : Bytes} (h : Bytes.NoPair Byte.openBrace text) :
    quote text = text := by
  have hrun : ∀ run ∈ text.splitBy bothOpen, quoteRun run = run := by
    intro run hmem
    have hinfix : run <:+: text := by
      rw [← List.flatten_splitBy bothOpen text]
      exact List.infix_of_mem_flatten hmem
    match run, List.isChain_of_mem_splitBy hmem with
    | [], _ =>
        rfl
    | [_], _ =>
        rfl
    | a :: b :: more, hchain =>
        cases hchain with
        | cons_cons hboth _ =>
            rcases (bothOpen_eq_true_iff a b).mp hboth with ⟨rfl, rfl⟩
            have hpair : [Byte.openBrace, Byte.openBrace] <:+: Byte.openBrace ::
                Byte.openBrace :: more :=
              (List.prefix_append _ more).isInfix
            exact absurd (hpair.trans hinfix) h
  rw [quote, List.flatMap_def, List.map_congr_left hrun, List.map_id', List.flatten_splitBy]

theorem quote_replicate (k : Nat) :
    quote (List.replicate (k + 2) Byte.openBrace) =
      (Fragment.directive (List.replicate (k + 2) Byte.openBrace)).source := by
  have hchain : (List.replicate (k + 2) Byte.openBrace).IsChain fun a b => bothOpen a b =
      true := by
    apply List.isChain_replicate_of_rel
    rfl
  have hne : List.replicate (k + 2) Byte.openBrace ≠ [] := List.cons_ne_nil _ _
  rw [quote, List.splitBy_of_isChain hne hchain]
  simp [quoteRun, Fragment.source]

theorem exists_first_run {bytes : Bytes} (h : ¬ Bytes.NoPair Byte.openBrace bytes) :
    ∃ text k rest, bytes = text ++ (List.replicate (k + 2) Byte.openBrace ++ rest) ∧
      Bytes.NoPair Byte.openBrace (text ++ [Byte.openBrace]) ∧
      rest.head? ≠ some Byte.openBrace := by
  rcases (Bytes.noPair_or_exists_first Byte.openBrace bytes).resolve_left h with
    ⟨text, behind, rfl, htext⟩
  have hrun : ∀ b ∈ behind.takeWhile (· == Byte.openBrace), b = Byte.openBrace := by
    intro b hb
    exact beq_iff_eq.mp (List.all_eq_true.mp List.all_takeWhile b hb)
  refine ⟨text, (behind.takeWhile (· == Byte.openBrace)).length,
    behind.dropWhile (· == Byte.openBrace), ?_, htext, ?_⟩
  · rw [List.replicate_succ, List.replicate_succ, ← List.eq_replicate_of_mem hrun]
    simp
  · intro hhead
    have hnot := List.head?_dropWhile_not (· == Byte.openBrace) behind
    rw [hhead] at hnot
    simp at hnot

theorem quote_first_run {text rest : Bytes} (k : Nat)
    (htext : Bytes.NoPair Byte.openBrace (text ++ [Byte.openBrace]))
    (hrest : rest.head? ≠ some Byte.openBrace) :
    quote (text ++ (List.replicate (k + 2) Byte.openBrace ++ rest)) =
      text ++ ((Fragment.directive (List.replicate (k + 2) Byte.openBrace)).source ++
        quote rest) := by
  have hend := (Bytes.noPair_concat.mp htext).right
  rw [not_and] at hend
  rw [quote_append, quote_append, quote_replicate, quote_of_noPair htext.of_append_left]
  · intro h
    exact hrest h.right
  · intro h
    exact hend rfl h.left

end Template

/-!
# Trees of texts
-/

inductive Tree.Texts : Bytes → List Tree → Prop where
  | nil : Texts [] []
  | cons {text rest : Bytes} {trees : List Tree} :
      Texts rest trees → Texts (text ++ rest) (.text text :: trees)

theorem Directive.reads_replicate (k : Nat) :
    Reads (List.replicate (k + 2) Byte.openBrace)
      (.escape (List.replicate (k + 2) Byte.openBrace)) := by
  apply Reads.word
  · exact nofun
  · have hbrace : String.utf8EncodeChar (Char.ofNat 0x7B) = [Byte.openBrace] := by rfl
    refine ⟨List.replicate (k + 2) (Char.ofNat 0x7B), ?_⟩
    rw [Utf8.encode, List.flatMap_replicate, hbrace, List.flatten_replicate_singleton]
  · apply Spells.escape
    · exact List.cons_ne_nil _ _
    · intro b hb
      exact List.eq_of_mem_replicate hb

theorem Derives.exists_ofText_append {rest : Bytes} {fragments : List Fragment}
    {trees : List Tree} (h : Derives fragments trees) (htexts : Tree.Texts rest trees)
    (text : Bytes) :
    ∃ trees', Derives (Fragment.ofText text ++ fragments) trees' ∧
      Tree.Texts (text ++ rest) trees' := by
  cases text with
  | nil =>
      exact ⟨trees, h, htexts⟩
  | cons b text =>
      exact ⟨_, Derives.text h, htexts.cons⟩

theorem Template.exists_derives_quote (bytes : Bytes) :
    ∃ fragments trees, Fragment.Cuts (quote bytes) fragments ∧ Derives fragments trees ∧
      Tree.Texts bytes trees := by
  by_cases h : Bytes.NoPair Byte.openBrace bytes
  · rcases Derives.nil.exists_ofText_append Tree.Texts.nil bytes with ⟨trees, hderives, htexts⟩
    rw [List.append_nil] at hderives htexts
    rw [quote_of_noPair h]
    exact ⟨_, trees, Fragment.Cuts.text h, hderives, htexts⟩
  · rcases exists_first_run h with ⟨text, k, rest, hsplit, htext, hhead⟩
    rcases exists_derives_quote rest with ⟨fragments, trees, hcuts, hderives, htexts⟩
    have hescape := Derives.escape (Directive.reads_replicate k) hderives
    rcases hescape.exists_ofText_append htexts.cons text with ⟨trees', hderives', htexts'⟩
    rw [hsplit, quote_first_run k htext hhead]
    have hother : ∀ b, b ≠ Byte.openBrace → b ∉ List.replicate (k + 2) Byte.openBrace := by
      intro b hb hmem
      exact hb (List.eq_of_mem_replicate hmem)
    have hclose := Bytes.noPair_concat_of_notMem (hother Byte.closeBrace (by decide))
    have hline := hother Byte.newline (by decide)
    exact ⟨_, trees', Fragment.Cuts.directive htext hclose (List.cons_ne_nil _ _) hline hcuts,
      hderives', htexts'⟩
termination_by bytes.length
decreasing_by
  rw [hsplit]
  simp
  omega

theorem Derives.exists_compile {bytes : Bytes} {fragments : List Fragment} {trees : List Tree}
    (h : Derives fragments trees) (hcuts : Fragment.Cuts bytes fragments) :
    ∃ t, Template.compile bytes = .ok t ∧ t.shape = trees := by
  rcases h.builds 0 1 {} with ⟨nodes, hnodes, hfold⟩
  refine ⟨⟨nodes⟩, ?_, hnodes⟩
  rw [compile_eq_ok_iff]
  refine ⟨fragments, _, hcuts, hfold, rfl, ?_⟩
  simp [Builder.addAll]

/-!
# What texts write
-/

theorem Script.output_of_texts [Addressing] (ns : Dict Value) {bytes : Bytes}
    {nodes : List Node} (h : Tree.Texts bytes (Node.shapes nodes)) (frame : Dict Value) :
    (ofNodes ns nodes frame).output = (bytes, .ok ()) := by
  induction nodes generalizing bytes with
  | nil =>
      cases h
      rfl
  | cons node rest ih =>
      cases node with
      | text text span =>
          cases h with
          | cons hrest =>
              have hchunk : (ofNode ns (.text text span) frame).ending = .ok () := rfl
              have hrest := ih hrest
              rw [output, Prod.mk.injEq] at hrest
              rw [ofNodes, andThen_of_ok hchunk, hrest.left, hrest.right]
              simp [ofNode, chunk, Script.bytes]
      | subst path span =>
          cases h
      | cond condition thenBranch elseBranch span =>
          cases h
      | loop var iterable body span =>
          cases h

theorem Template.render_of_output [Addressing] {t : Template} {ns : Dict Value} {bytes : Bytes}
    (h : (t.script ns).output = (bytes, .ok ()))
    (hroom : bytes.length < ({} : OutputBuffer).limit) : t.render ns = .ok bytes := by
  rw [Script.output, Prod.mk.injEq] at h
  have hfits : OutputBuffer.Fits {} ((t.script ns).chunks.map Prod.fst) := by
    have hbytes : ((t.script ns).chunks.map Prod.fst).flatten = bytes := h.left
    have hempty : ({} : OutputBuffer).content = [] := rfl
    rw [OutputBuffer.Fits, hbytes, hempty, List.length_nil, Nat.zero_add]
    exact hroom
  rcases hfits.exists_accepts with ⟨final, haccepts, hcontent⟩
  rw [render, renderTo_of_accepts haccepts, Script.outcome, h.right]
  exact congrArg Except.ok (hcontent.trans h.left)

/-!
# The theorem
-/

/-- Every byte string, once quoted, compiles, and whatever the namespace holds, the
template writes exactly that byte string to every unlimited sink, and to a buffer unless
it reaches its limit. -/
theorem quoted_renders_itself [Addressing] (bytes : Bytes) :
    ∃ t, Template.compile (Template.quote bytes) = .ok t ∧
      ∀ ns, (t.script ns).output = (bytes, .ok ()) ∧
        (∀ {σ ε : Type} (sink : Sink σ ε) (Ready : σ → Prop) (content : σ → Bytes),
          sink.Unlimited Ready content → ∀ state, Ready state →
            t.Writes ns sink content state bytes (.ok ())) ∧
        (bytes.length < ({} : OutputBuffer).limit → t.render ns = .ok bytes) := by
  rcases Template.exists_derives_quote bytes with ⟨fragments, trees, hcuts, hderives, htexts⟩
  rcases hderives.exists_compile hcuts with ⟨t, hcompile, hshape⟩
  refine ⟨t, hcompile, ?_⟩
  intro ns
  have houtput : (t.script ns).output = (bytes, .ok ()) := by
    apply Script.output_of_texts
    rw [← Template.shape, hshape]
    exact htexts
  refine ⟨houtput, ?_, Template.render_of_output houtput⟩
  intro σ ε sink Ready content hsink state hready
  rw [Script.output, Prod.mk.injEq] at houtput
  apply (Template.writes_iff hsink hready t ns bytes _).mpr
  refine ⟨houtput.left.symm, ?_⟩
  rw [Script.outcome, houtput.right]
  rfl

def braceRuns : Bytes :=
  Bytes.ofText "\x7d\x7b\x7b\x7b\x7d\n\x7bx\x7d\x7b\x7b"

def braceRunsSource : Bytes :=
  Bytes.ofText "\x7d\x7b\x7b\x7b\x7b\x7b\x7d\x7d\x7d\n\x7bx\x7d\x7b\x7b\x7b\x7b\x7d\x7d"

theorem quoted_runs_render :
    Template.quote braceRuns = braceRunsSource ∧
      ∃ t, Template.compile braceRunsSource = .ok t ∧ t.render .empty = .ok braceRuns := by
  have hquote : Template.quote braceRuns = braceRunsSource := by
    rfl
  rcases quoted_renders_itself braceRuns with ⟨t, hcompile, hrenders⟩
  rw [hquote] at hcompile
  exact ⟨hquote, t, hcompile, (hrenders .empty).right.right (by decide)⟩

end Stencil
