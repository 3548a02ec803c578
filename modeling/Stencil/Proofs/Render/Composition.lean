import Stencil.Proofs.Render.Delivery
import Stencil.Proofs.Template.Concatenation
import Stencil.Standard

/-!
# Rendering sources put together

The template of two sources put together renders the first one and then, unless that
fails, the second one.  No loop variable is left over in between, and the errors of the
second one are those that it has by itself, at the place where it now stands.
-/

namespace Stencil

variable {σ ε : Type}

namespace Script

/-!
# Output
-/

def bytes (script : Script) : Bytes :=
  (script.chunks.map Prod.fst).flatten

def output (script : Script) : Bytes × Except (ScriptFault × Span) Unit :=
  (script.bytes, script.ending)

theorem andThen_of_ok {first : Script} (h : first.ending = .ok ()) (second : Script) :
    (first.andThen second).output = (first.bytes ++ second.bytes, second.ending) := by
  rcases first with ⟨chunks, ending⟩
  cases h
  simp [andThen, output, bytes]

theorem andThen_of_error {first : Script} {e : ScriptFault × Span}
    (h : first.ending = .error e) (second : Script) : first.andThen second = first := by
  rw [andThen, h]

theorem andThen_assoc (first second third : Script) :
    (first.andThen second).andThen third = first.andThen (second.andThen third) := by
  rcases first with ⟨chunks, e | _⟩
  · rfl
  · rcases second with ⟨more, e | _⟩
    · rfl
    · simp [andThen, List.append_assoc]

theorem output_andThen_congr (first : Script) {second other : Script}
    (h : second.output = other.output) :
    (first.andThen second).output = (first.andThen other).output := by
  cases hending : first.ending with
  | error e =>
      rw [andThen_of_error hending, andThen_of_error hending]
  | ok _ =>
      have hbytes : second.bytes = other.bytes := congrArg Prod.fst h
      have hends : second.ending = other.ending := congrArg Prod.snd h
      rw [andThen_of_ok hending, andThen_of_ok hending, hbytes, hends]

/-!
# Nodes side by side
-/

theorem ofNodes_append [Addressing] (ns : Dict Value) (front back : List Node)
    (frame : Dict Value) :
    ofNodes ns (front ++ back) frame =
      (ofNodes ns front frame).andThen (ofNodes ns back frame) := by
  induction front with
  | nil =>
      rfl
  | cons node front ih =>
      rw [List.cons_append, ofNodes, ofNodes, ih, andThen_assoc]

theorem output_ofText [Addressing] (ns : Dict Value) (text : Bytes) (span : Span)
    (frame : Dict Value) :
    (ofNodes ns (Node.ofText text span) frame).output = (text, .ok ()) := by
  cases text with
  | nil =>
      rfl
  | cons b text =>
      have hnodes : Node.ofText (b :: text) span = [.text (b :: text) span] := rfl
      rw [hnodes, ofNodes, ofNode, ofNodes]
      simp [andThen, chunk, done, output, bytes]

theorem output_ofText_append [Addressing] (ns : Dict Value) (last first : Bytes)
    (lastSpan firstSpan span : Span) (frame : Dict Value) (script : Script) :
    ((ofNodes ns (Node.ofText last lastSpan) frame).andThen
        ((ofNodes ns (Node.ofText first firstSpan) frame).andThen script)).output =
      ((ofNodes ns (Node.ofText (last ++ first) span) frame).andThen script).output := by
  have hlast := output_ofText ns last lastSpan frame
  have hfirst := output_ofText ns first firstSpan frame
  have hjoined := output_ofText ns (last ++ first) span frame
  rw [output, Prod.mk.injEq] at hlast hfirst hjoined
  have hmore := andThen_of_ok hfirst.right script
  rw [output, Prod.mk.injEq] at hmore
  rw [andThen_of_ok hlast.right, andThen_of_ok hjoined.right, hmore.left,
    hmore.right, hlast.left, hfirst.left, hjoined.left, List.append_assoc]

/-!
# Displaced scripts
-/

def behind (front : Bytes) (script : Script) : Script where
  chunks := script.chunks.map fun entry => (entry.1, entry.2.behind front)
  ending := script.ending.mapError fun e => (e.1, e.2.behind front)

theorem bytes_behind (front : Bytes) (script : Script) :
    (script.behind front).bytes = script.bytes := by
  simp [bytes, behind, Function.comp_def]

theorem andThen_behind (front : Bytes) (first second : Script) :
    (first.andThen second).behind front =
      (first.behind front).andThen (second.behind front) := by
  rcases first with ⟨chunks, e | _⟩
  · rfl
  · exact congrArg (Script.mk · (second.behind front).ending) List.map_append

theorem all_behind (front : Bytes) (scripts : List Script) :
    (all scripts).behind front = all (scripts.map (behind front)) := by
  induction scripts with
  | nil =>
      rfl
  | cons script rest ih =>
      have hcons : all (script :: rest) = script.andThen (all rest) := rfl
      rw [hcons, andThen_behind, ih]
      rfl

theorem resolving_behind (front : Bytes) (ns frame : Dict Value) (path : Path)
    (purpose : Lookup) (span : Span) (next : Value → Script) :
    (resolving ns frame path purpose span next).behind front =
      resolving ns frame path purpose (span.behind front) fun v => (next v).behind front := by
  rw [resolving, resolving]
  cases resolve ns frame path with
  | ok v =>
      rfl
  | error e =>
      rfl

mutual

theorem ofNode_behind [Addressing] (front : Bytes) (ns : Dict Value) :
    ∀ node frame, ofNode ns (node.behind front) frame = (ofNode ns node frame).behind front
  | .text bytes span, _ => rfl
  | .subst path span, frame => by
      rw [Node.behind, ofNode, ofNode, resolving_behind]
      rfl
  | .cond condition thenBranch elseBranch span, frame => by
      rw [Node.behind, ofNode, ofNode, resolving_behind]
      congr 1
      funext v
      split
      · exact ofNodes_behind front ns thenBranch frame
      · exact ofNodes_behind front ns elseBranch frame
  | .loop var iterable body span, frame => by
      rw [Node.behind, ofNode, ofNode, resolving_behind]
      congr 1
      funext v
      cases v.entries with
      | error e =>
          rfl
      | ok entries =>
          simp only [all_behind, List.map_map]
          congr 1
          apply List.map_congr_left
          intro entry _
          exact ofNodes_behind front ns body (passFrame frame var entry)

theorem ofNodes_behind [Addressing] (front : Bytes) (ns : Dict Value) :
    ∀ nodes frame,
      ofNodes ns (Node.allBehind front nodes) frame = (ofNodes ns nodes frame).behind front
  | [], _ => rfl
  | node :: rest, frame => by
      rw [Node.allBehind, ofNodes, ofNodes, andThen_behind, ofNode_behind front ns node frame,
        ofNodes_behind front ns rest frame]

end

end Script

theorem Node.allBehind_ofText (front text : Bytes) (span : Span) :
    allBehind front (ofText text span) = ofText text (span.behind front) := by
  cases text with
  | nil =>
      rfl
  | cons b text =>
      rfl

theorem Template.exists_compile_append [Addressing] {front back : Bytes} {t u : Template}
    (ht : compile front = .ok t) (hu : compile back = .ok u)
    (hseam : ¬ (front.getLast? = some Byte.openBrace ∧ back.head? = some Byte.openBrace)) :
    ∃ whole, compile (front ++ back) = .ok whole ∧
      ∀ ns, (whole.script ns).output =
        ((t.script ns).andThen ((u.script ns).behind front)).output := by
  rcases compile_append ht hu hseam with
    ⟨init, last, first, more, lastSpan, firstSpan, span, hfront, hback, hwhole⟩
  refine ⟨_, hwhole, ?_⟩
  intro ns
  have hu : (u.script ns).behind front =
      (Script.ofNodes ns (Node.ofText first (firstSpan.behind front)) .empty).andThen
        (Script.ofNodes ns (more.map (Node.behind front)) .empty) := by
    rw [script, hback, Script.ofNodes_append, Script.andThen_behind, ← Script.ofNodes_behind,
      ← Script.ofNodes_behind, Node.allBehind_ofText, Node.allBehind_eq_map]
  rw [hu, script, script, hfront, Script.ofNodes_append, Script.ofNodes_append,
    Script.ofNodes_append, Script.andThen_assoc]
  apply Script.output_andThen_congr
  rw [Script.output_ofText_append ns last first lastSpan (firstSpan.behind front) span]

/-!
# Unlimited sinks
-/

def RenderError.behind (front : Bytes) (e : RenderError ε) : RenderError ε :=
  { e with span := e.span.behind front }

theorem Script.outcome_behind (front : Bytes) (script : Script) :
    ((script.behind front).outcome : Except (RenderError ε) Unit) =
      script.outcome.mapError (RenderError.behind front) := by
  rcases script with ⟨chunks, e | _⟩
  · rfl
  · rfl

theorem Script.outcome_congr {script other : Script} (h : script.output = other.output) :
    (script.outcome : Except (RenderError ε) Unit) = other.outcome := by
  have hending : script.ending = other.ending := congrArg Prod.snd h
  rw [outcome, outcome, hending]

theorem Script.joined_of_ok {first second whole : Script} {front : Bytes}
    (hwhole : whole.output = (first.andThen (second.behind front)).output)
    (hfirst : .ok () = (first.outcome : Except (RenderError ε) Unit)) :
    whole.bytes = first.bytes ++ second.bytes ∧
      (whole.outcome : Except (RenderError ε) Unit) =
        second.outcome.mapError (RenderError.behind front) := by
  have hending : first.ending = .ok () := by
    rcases first with ⟨chunks, e | _⟩
    · cases hfirst
    · rfl
  rw [andThen_of_ok hending, bytes_behind] at hwhole
  constructor
  · exact congrArg Prod.fst hwhole
  · have hends : whole.ending = (second.behind front).ending := congrArg Prod.snd hwhole
    rw [← outcome_behind, outcome, outcome, hends]

theorem Script.joined_of_error {first second whole : Script} {front : Bytes}
    {e : RenderError ε} (hwhole : whole.output = (first.andThen (second.behind front)).output)
    (hfirst : .error e = first.outcome) :
    whole.bytes = first.bytes ∧ whole.outcome = .error e := by
  have hending : ∃ fault, first.ending = .error fault := by
    rcases first with ⟨chunks, fault | _⟩
    · exact ⟨fault, rfl⟩
    · cases hfirst
  rcases hending with ⟨fault, hending⟩
  rw [andThen_of_error hending] at hwhole
  constructor
  · exact congrArg Prod.fst hwhole
  · rw [hfirst]
    exact outcome_congr hwhole

def Template.Writes [Addressing] (t : Template) (ns : Dict Value) (sink : Sink σ ε)
    (content : σ → Bytes) (state : σ) (bytes : Bytes) (outcome : Except (RenderError ε) Unit)
    : Prop :=
  ∃ final, t.renderTo sink state ns = (final, outcome) ∧ content final = content state ++ bytes

theorem Template.writes_iff [Addressing] {sink : Sink σ ε} {Ready : σ → Prop}
    {content : σ → Bytes} (hsink : sink.Unlimited Ready content) {state : σ}
    (hready : Ready state) (t : Template) (ns : Dict Value) (bytes : Bytes)
    (outcome : Except (RenderError ε) Unit) :
    t.Writes ns sink content state bytes outcome ↔
      bytes = (t.script ns).bytes ∧ outcome = (t.script ns).outcome := by
  rcases hsink.exists_accepts hready ((t.script ns).chunks.map Prod.fst) with
    ⟨final, haccepts, hcontent⟩
  have hrender := renderTo_of_accepts haccepts
  constructor
  · rintro ⟨other, hother, hbytes⟩
    rw [hrender] at hother
    cases hother
    rw [hcontent] at hbytes
    exact ⟨(List.append_cancel_left hbytes).symm, rfl⟩
  · rintro ⟨rfl, rfl⟩
    exact ⟨final, hrender, hcontent⟩

/-!
# The theorem
-/

/-- Two sources that compile, and that make no pair of opening braces where they
meet, compile together.  In an unlimited sink the whole writes what the first one
writes and, unless that one fails, what the second one writes behind it.  It fails as
the first one does, or else as the second one does, whose span and line are then
those behind the first. -/
theorem compiled_append_renders_in_turn [Addressing] {front back : Bytes} {t u : Template}
    (ht : Template.compile front = .ok t) (hu : Template.compile back = .ok u)
    (hseam : ¬ (front.getLast? = some Byte.openBrace ∧ back.head? = some Byte.openBrace)) :
    ∃ whole, Template.compile (front ++ back) = .ok whole ∧
      ∀ {σ ε : Type} (sink : Sink σ ε) (Ready : σ → Prop) (content : σ → Bytes),
        sink.Unlimited Ready content → ∀ state, Ready state → ∀ ns,
          (∀ a b, t.Writes ns sink content state a (.ok ()) →
            u.Writes ns sink content state b (.ok ()) →
              whole.Writes ns sink content state (a ++ b) (.ok ())) ∧
          (∀ a e, t.Writes ns sink content state a (.error e) →
            whole.Writes ns sink content state a (.error e)) ∧
          (∀ a b e, t.Writes ns sink content state a (.ok ()) →
            u.Writes ns sink content state b (.error e) →
              whole.Writes ns sink content state (a ++ b) (.error (e.behind front))) := by
  rcases Template.exists_compile_append ht hu hseam with ⟨whole, hwhole, hscript⟩
  refine ⟨whole, hwhole, ?_⟩
  intro σ ε sink Ready content hsink state hready ns
  simp only [Template.writes_iff hsink hready]
  refine ⟨?_, ?_, ?_⟩
  · rintro a b ⟨rfl, ht⟩ ⟨rfl, hu⟩
    rcases Script.joined_of_ok (hscript ns) ht with ⟨hbytes, houtcome⟩
    refine ⟨hbytes.symm, ?_⟩
    rw [houtcome, ← hu]
    rfl
  · rintro a e ⟨rfl, ht⟩
    rcases Script.joined_of_error (hscript ns) ht with ⟨hbytes, houtcome⟩
    exact ⟨hbytes.symm, houtcome.symm⟩
  · rintro a b e ⟨rfl, ht⟩ ⟨rfl, hu⟩
    rcases Script.joined_of_ok (hscript ns) ht with ⟨hbytes, houtcome⟩
    refine ⟨hbytes.symm, ?_⟩
    rw [houtcome, ← hu]
    rfl

def twoTexts : Template :=
  ⟨[.text (Bytes.ofText "a\n") ⟨1, 0, 2⟩, .subst [0x78] ⟨2, 2, 7⟩,
    .text [0x62, 0x63] ⟨2, 7, 9⟩, .subst [0x79] ⟨2, 9, 14⟩]⟩

/-- The path of the second source is not found, on the line on which
the first source ends. -/
theorem compiled_append_fails_in_second :
    Template.compile (Bytes.ofText "a\n\x7b\x7bx\x7d\x7db" ++
      Bytes.ofText "c\x7b\x7by\x7d\x7d") =
        .ok twoTexts ∧
      twoTexts.Writes ⟨[([0x78], .string [0x37])]⟩ Stream.sink Stream.taken {}
        (Bytes.ofText "a\n7bc")
        (.error ⟨.lookup .substitution ⟨.notFound [0x79], 0, []⟩, ⟨2, 9, 14⟩⟩) := by
  have hfront : Template.compile (Bytes.ofText "a\n\x7b\x7bx\x7d\x7db") =
      .ok ⟨[.text (Bytes.ofText "a\n") ⟨1, 0, 2⟩, .subst [0x78] ⟨2, 2, 7⟩,
        .text [0x62] ⟨2, 7, 8⟩]⟩ := by
    rfl
  have hback : Template.compile (Bytes.ofText "c\x7b\x7by\x7d\x7d") =
      .ok ⟨[.text [0x63] ⟨1, 0, 1⟩, .subst [0x79] ⟨1, 1, 6⟩]⟩ := by
    rfl
  have hwhole : Template.compile
      (Bytes.ofText "a\n\x7b\x7bx\x7d\x7db" ++ Bytes.ofText "c\x7b\x7by\x7d\x7d") =
        .ok twoTexts := by
    rfl
  rcases compiled_append_renders_in_turn hfront hback (by decide) with
    ⟨whole, hcompile, hrenders⟩
  rw [hwhole] at hcompile
  cases hcompile
  rcases hrenders Stream.sink _ Stream.taken Stream.unlimited {} ⟨nofun, rfl⟩
    ⟨[([0x78], .string [0x37])]⟩ with ⟨_, _, hfails⟩
  exact ⟨hwhole, hfails (Bytes.ofText "a\n7b") [0x63]
    ⟨.lookup .substitution ⟨.notFound [0x79], 0, []⟩, ⟨1, 1, 6⟩⟩ ⟨_, rfl, rfl⟩ ⟨_, rfl, rfl⟩⟩

end Stencil
