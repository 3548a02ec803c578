import Stencil.Proofs.Render.Script

/-!
# Where rendering comes to

Rendering enters blocks of nodes, each with a frame.  Whatever a script offers,
one of the nodes that it comes to has offered it; and where a script ends early,
one of them is at fault.
-/

namespace Stencil

/-- Rendering `root` with the frame `outset` comes to a block with a frame,
whichever way conditions may go.  The variables are those of the loops entered on
the way, innermost first. -/
inductive Enters (ns : Dict Value) (root : List Node) (outset : Dict Value) :
    List Bytes → List Node → Dict Value → Prop where
  | root : Enters ns root outset [] root outset
  | thenBranch {vars : List Bytes} {block thenBranch elseBranch : List Node}
    {frame : Dict Value}
      {condition : Path} {span : Span} :
      Enters ns root outset vars block frame →
      .cond condition thenBranch elseBranch span ∈ block →
      Enters ns root outset vars thenBranch frame
  | elseBranch {vars : List Bytes} {block thenBranch elseBranch : List Node}
    {frame : Dict Value}
      {condition : Path} {span : Span} :
      Enters ns root outset vars block frame →
      .cond condition thenBranch elseBranch span ∈ block →
      Enters ns root outset vars elseBranch frame
  | pass {vars : List Bytes} {block body : List Node} {frame : Dict Value} {var : Bytes}
      {iterable : Path} {span : Span} {v : Value} {entries : List (Key × Value)}
      {entry : Key × Value} :
      Enters ns root outset vars block frame → .loop var iterable body span ∈ block →
      resolve ns frame iterable = .ok v → v.entries = .ok entries → entry ∈ entries →
      Enters ns root outset (var :: vars) body (passFrame frame var entry)

inductive Node.Offers [Addressing] (ns frame : Dict Value) : Node → Bytes → Prop where
  | text {bytes : Bytes} {span : Span} : Offers ns frame (.text bytes span) bytes
  | subst {path : Path} {span : Span} {v : Value} :
      resolve ns frame path = .ok v → Offers ns frame (.subst path span) v.substitution

def Originates [Addressing] (ns : Dict Value) (root : List Node) (outset : Dict Value)
    (chunk : Bytes) (span : Span) : Prop :=
  ∃ vars block frame node, Enters ns root outset vars block frame ∧ node ∈ block ∧
    node.span = span ∧ node.Offers ns frame chunk

/-- Rendering a list of nodes with a frame comes to a node with a frame, behind the chunks
that it has offered on the way. -/
inductive Reaches [Addressing] (ns : Dict Value) :
    List Node → Dict Value → List (Bytes × Span) → Node → Dict Value → Prop where
  | here {node : Node} {rest : List Node} {frame : Dict Value} :
      Reaches ns (node :: rest) frame [] node frame
  | later {first node : Node} {rest : List Node} {frame inner : Dict Value}
      {before : List (Bytes × Span)} :
      (Script.ofNode ns first frame).ending = .ok () →
      Reaches ns rest frame before node inner →
      Reaches ns (first :: rest) frame ((Script.ofNode ns first frame).chunks ++
        before) node inner
  | thenBranch {condition : Path} {thenBranch elseBranch rest : List Node}
    {span : Span} {node : Node}
      {frame inner : Dict Value} {before : List (Bytes × Span)} {v : Value} :
      resolve ns frame condition = .ok v → v.isTruthy = true →
      Reaches ns thenBranch frame before node inner →
      Reaches ns (.cond condition thenBranch elseBranch span :: rest) frame before node inner
  | elseBranch {condition : Path} {thenBranch elseBranch rest : List Node}
    {span : Span} {node : Node}
      {frame inner : Dict Value} {before : List (Bytes × Span)} {v : Value} :
      resolve ns frame condition = .ok v → v.isTruthy = false →
      Reaches ns elseBranch frame before node inner →
      Reaches ns (.cond condition thenBranch elseBranch span :: rest) frame before node inner
  | pass {var : Bytes} {iterable : Path} {body rest : List Node} {span : Span} {node : Node}
      {frame inner : Dict Value} {before : List (Bytes × Span)} {v : Value}
      {done todo : List (Key × Value)} {entry : Key × Value} {passes : Script} :
      resolve ns frame iterable = .ok v → v.entries = .ok (done ++ entry :: todo) →
      passes =
        Script.all (done.map fun entry => Script.ofNodes ns body (passFrame frame var entry)) →
      passes.ending = .ok () → Reaches ns body (passFrame frame var entry) before node inner →
      Reaches ns (.loop var iterable body span :: rest) frame (passes.chunks ++
        before) node inner

inductive Node.Seeks : Node → Lookup → Path → Prop where
  | condition {path : Path} {thenBranch elseBranch : List Node} {span : Span} :
      Seeks (.cond path thenBranch elseBranch span) .condition path
  | iterable {var : Bytes} {path : Path} {body : List Node} {span : Span} :
      Seeks (.loop var path body span) .iterable path
  | substitution {path : Path} {span : Span} : Seeks (.subst path span) .substitution path

def Value.IsScalar : Value → Prop
  | .none | .int _ | .string _ => True
  | .array _ | .dict _ => False

theorem Value.isScalar_of_entries_eq_error {v : Value} {e : ValueError}
    (h : v.entries = .error e) : v.IsScalar := by
  cases v with
  | none =>
      trivial
  | int n =>
      trivial
  | string bytes =>
      trivial
  | array items =>
      cases h
  | dict d =>
      cases h

/-- What a node does not get over with a frame, without what it encloses. -/
inductive Node.Breaks (ns frame : Dict Value) : Node → ScriptFault → Prop where
  | lookup {node : Node} {purpose : Lookup} {path : Path} {unseen error : PathError} :
      node.Seeks purpose path → lookup frame path = .error unseen →
      lookup ns path = .error error →
      Breaks ns frame node (.lookup purpose error)
  | notIterable {var : Bytes} {path : Path} {body : List Node} {span : Span} {v : Value} :
      resolve ns frame path = .ok v → v.IsScalar →
      Breaks ns frame (.loop var path body span) (.notIterable path)

/-!
# Events
-/

inductive Script.Event where
  | offers (chunk : Bytes)
  | stops (fault : ScriptFault)

def Node.Causes [Addressing] (ns frame : Dict Value) (node : Node) : Script.Event → Prop
  | .offers chunk => node.Offers ns frame chunk
  | .stops fault => node.Breaks ns frame fault

namespace Script

def Does (script : Script) (before : List (Bytes × Span)) (span : Span) : Event → Prop
  | .offers chunk => ∃ back, script.chunks = before ++ (chunk, span) :: back
  | .stops fault => script.chunks = before ∧ script.ending = .error (fault, span)

theorem not_does_done (before : List (Bytes × Span)) (span : Span) (event : Event) :
    ¬ Script.done.Does before span event := by
  intro h
  cases event with
  | stops fault =>
      cases h.right
  | offers chunk =>
      rcases h with ⟨back, hchunks⟩
      exact List.append_ne_nil_of_right_ne_nil before (List.cons_ne_nil _ back) hchunks.symm

theorem Does.of_chunk {bytes : Bytes} {place span : Span} {before : List (Bytes × Span)}
    {event : Event} (h : (chunk bytes place).Does before span event) :
    before = [] ∧ span = place ∧ event = .offers bytes := by
  cases event with
  | stops fault =>
      cases h.right
  | offers offered =>
      rcases h with ⟨back, hchunks⟩
      rcases List.append_eq_singleton_iff.mp hchunks.symm with ⟨hbefore, hentry⟩ | ⟨_, hentry⟩
      · cases hentry
        exact ⟨hbefore, rfl, rfl⟩
      · cases hentry

theorem Does.of_stop {fault : ScriptFault} {place span : Span} {before : List (Bytes × Span)}
    {event : Event} (h : (stop fault place).Does before span event) :
    before = [] ∧ span = place ∧ event = .stops fault := by
  cases event with
  | offers offered =>
      rcases h with ⟨back, hchunks⟩
      exact absurd hchunks.symm
        (List.append_ne_nil_of_right_ne_nil before (List.cons_ne_nil _ back))
  | stops other =>
      rcases h with ⟨hchunks, hending⟩
      cases hending
      exact ⟨hchunks.symm, rfl, rfl⟩

theorem Does.of_andThen {first second : Script} {before : List (Bytes × Span)} {span : Span}
    {event : Event} (h : (first.andThen second).Does before span event) :
    first.Does before span event ∨
      first.ending = .ok () ∧
        ∃ rest, before = first.chunks ++ rest ∧ second.Does rest span event := by
  rcases first with ⟨chunks, e | _⟩
  · exact Or.inl h
  · have hjoined : (Script.mk chunks (.ok ())).andThen second =
        ⟨chunks ++ second.chunks, second.ending⟩ := rfl
    rw [hjoined] at h
    cases event with
    | stops fault =>
        rcases h with ⟨hchunks, hending⟩
        exact Or.inr ⟨rfl, second.chunks, hchunks.symm, rfl, hending⟩
    | offers offered =>
        rcases h with ⟨back, hchunks⟩
        rcases List.append_eq_append_iff.mp hchunks with ⟨rest, hbefore, hrest⟩
          | ⟨more, hfirst, hmore⟩
        · exact Or.inr ⟨rfl, rest, hbefore, back, hrest⟩
        · cases more with
          | nil =>
              rw [List.append_nil] at hfirst
              exact Or.inr ⟨rfl, [], by rw [List.append_nil, hfirst], back, hmore.symm⟩
          | cons entry more =>
              cases hmore
              exact Or.inl ⟨more, hfirst⟩

theorem Does.of_all {α : Type} {script : α → Script} {entries : List α}
    {before : List (Bytes × Span)} {span : Span} {event : Event}
    (h : (all (entries.map script)).Does before span event) :
    ∃ done entry todo rest, entries = done ++ entry :: todo ∧
      (all (done.map script)).ending = .ok () ∧
      before = (all (done.map script)).chunks ++ rest ∧
      (script entry).Does rest span event := by
  induction entries generalizing before with
  | nil =>
      exact absurd h (not_does_done before span event)
  | cons entry entries ih =>
      rcases Does.of_andThen h with hfirst | ⟨hending, rest, rfl, hrest⟩
      · exact ⟨[], entry, entries, before, rfl, rfl, rfl, hfirst⟩
      · rcases ih hrest with ⟨done, later, todo, rest, rfl, hdone, rfl, hlater⟩
        have hall : all ((entry :: done).map script) =
            ⟨(script entry).chunks ++ (all (done.map script)).chunks, .ok ()⟩ := by
          have hcons : all ((entry :: done).map script) =
              (script entry).andThen (all (done.map script)) := rfl
          rw [hcons, andThen, hending, hdone]
        refine ⟨entry :: done, later, todo, rest, rfl, ?_, ?_, hlater⟩
        · rw [hall]
        · rw [hall, List.append_assoc]

theorem Does.of_resolving {ns frame : Dict Value} {path : Path} {purpose : Lookup}
    {place span : Span} {next : Value → Script} {before : List (Bytes × Span)} {event : Event}
    (h : (resolving ns frame path purpose place next).Does before span event) :
    (∃ v, resolve ns frame path = .ok v ∧ (next v).Does before span event) ∨
      before = [] ∧ span = place ∧ ∃ unseen error, lookup frame path = .error unseen ∧
        lookup ns path = .error error ∧ event = .stops (.lookup purpose error) := by
  unfold resolving at h
  cases hresolve : resolve ns frame path with
  | ok v =>
      rw [hresolve] at h
      exact Or.inl ⟨v, rfl, h⟩
  | error error =>
      rw [hresolve] at h
      rcases Does.of_stop h with ⟨hbefore, hspan, hevent⟩
      rw [resolve] at hresolve
      cases hlocal : lookup frame path with
      | ok v =>
          rw [hlocal] at hresolve
          cases hresolve
      | error unseen =>
          rw [hlocal] at hresolve
          exact Or.inr ⟨hbefore, hspan, unseen, error, rfl, hresolve, hevent⟩

end Script

/-!
# The node that an event is from
-/

def Traces [Addressing] (ns : Dict Value) (nodes : List Node) (frame : Dict Value)
    (before : List (Bytes × Span)) (span : Span) (event : Script.Event) : Prop :=
  ∃ node inner, Reaches ns nodes frame before node inner ∧ node.span = span ∧
    node.Causes ns inner event

theorem Node.Seeks.traces [Addressing] {ns frame : Dict Value} {node : Node}
    {purpose : Lookup} {path : Path} (hseeks : node.Seeks purpose path) (rest : List Node)
    {next : Value → Script} {span : Span} {before : List (Bytes × Span)}
    {event : Script.Event}
    (h : (Script.resolving ns frame path purpose node.span next).Does before span event)
    (hnext : ∀ v, resolve ns frame path = .ok v → (next v).Does before span event →
      Traces ns (node :: rest) frame before span event) :
    Traces ns (node :: rest) frame before span event := by
  rcases h.of_resolving with ⟨v, hresolve, hdoes⟩
    | ⟨rfl, rfl, unseen, error, hlocal, hlookup, rfl⟩
  · exact hnext v hresolve hdoes
  · exact ⟨node, frame, Reaches.here, rfl, Node.Breaks.lookup hseeks hlocal hlookup⟩

mutual

theorem Script.Does.traces_ofNode [Addressing] {ns : Dict Value} {span : Span}
    {event : Script.Event} :
    ∀ (node : Node) (rest : List Node) {frame : Dict Value} {before : List (Bytes × Span)},
      (Script.ofNode ns node frame).Does before span event →
        Traces ns (node :: rest) frame before span event
  | .text bytes place, rest, frame, before, h => by
      rw [Script.ofNode] at h
      rcases h.of_chunk with ⟨rfl, rfl, rfl⟩
      exact ⟨_, frame, Reaches.here, rfl, Node.Offers.text⟩
  | .subst path place, rest, frame, before, h => by
      rw [Script.ofNode] at h
      refine Node.Seeks.substitution.traces rest h ?_
      intro v hresolve hdoes
      rcases hdoes.of_chunk with ⟨rfl, rfl, rfl⟩
      exact ⟨_, frame, Reaches.here, rfl, Node.Offers.subst hresolve⟩
  | .cond condition thenBranch elseBranch place, rest, frame, before, h => by
      rw [Script.ofNode] at h
      refine Node.Seeks.condition.traces rest h ?_
      intro v hresolve hdoes
      cases htruthy : v.isTruthy with
      | true =>
          rw [htruthy, if_pos rfl] at hdoes
          rcases Script.Does.traces_ofNodes thenBranch hdoes with
            ⟨node, inner, hreaches, hnode⟩
          exact ⟨node, inner, Reaches.thenBranch hresolve htruthy hreaches, hnode⟩
      | false =>
          rw [htruthy, if_neg Bool.false_ne_true] at hdoes
          rcases Script.Does.traces_ofNodes elseBranch hdoes with
            ⟨node, inner, hreaches, hnode⟩
          exact ⟨node, inner, Reaches.elseBranch hresolve htruthy hreaches, hnode⟩
  | .loop var iterable body place, rest, frame, before, h => by
      rw [Script.ofNode] at h
      refine Node.Seeks.iterable.traces rest h ?_
      intro v hresolve hdoes
      cases hentries : v.entries with
      | error e =>
          simp only [hentries] at hdoes
          rcases hdoes.of_stop with ⟨rfl, rfl, rfl⟩
          have hscalar := Value.isScalar_of_entries_eq_error hentries
          exact ⟨_, frame, Reaches.here, rfl, Node.Breaks.notIterable hresolve hscalar⟩
      | ok entries =>
          simp only [hentries] at hdoes
          rcases hdoes.of_all with ⟨done, entry, todo, before, rfl, hending, rfl, hpass⟩
          rcases Script.Does.traces_ofNodes body hpass with ⟨node, inner, hreaches, hnode⟩
          exact ⟨node, inner, Reaches.pass hresolve hentries rfl hending hreaches, hnode⟩

theorem Script.Does.traces_ofNodes [Addressing] {ns : Dict Value} {span : Span}
    {event : Script.Event} :
    ∀ (nodes : List Node) {frame : Dict Value} {before : List (Bytes × Span)},
      (Script.ofNodes ns nodes frame).Does before span event →
        Traces ns nodes frame before span event
  | [], _, before, h => absurd h (Script.not_does_done before span event)
  | node :: rest, frame, before, h => by
      rw [Script.ofNodes] at h
      rcases h.of_andThen with hfirst | ⟨hending, more, rfl, hrest⟩
      · exact Script.Does.traces_ofNode node rest hfirst
      · rcases Script.Does.traces_ofNodes rest hrest with ⟨found, inner, hreaches, hfound⟩
        exact ⟨found, inner, Reaches.later hending hreaches, hfound⟩

end

/-!
# Blocks
-/

section Origin

variable {ns : Dict Value} {root : List Node} {outset : Dict Value}

theorem Reaches.exists_enters [Addressing] {nodes : List Node} {frame inner : Dict Value}
    {before : List (Bytes × Span)} {node : Node} (h : Reaches ns nodes frame before node inner)
    {vars : List Bytes} {block : List Node} (henters : Enters ns root outset vars block frame)
    (hnodes : ∀ node ∈ nodes, node ∈ block) :
    ∃ vars' block', Enters ns root outset vars' block' inner ∧ node ∈ block' := by
  induction h generalizing vars block with
  | here =>
      exact ⟨vars, block, henters, hnodes _ List.mem_cons_self⟩
  | later _ _ ih =>
      rw [List.forall_mem_cons] at hnodes
      exact ih henters hnodes.right
  | thenBranch _ _ _ ih =>
      exact ih (henters.thenBranch (hnodes _ List.mem_cons_self)) fun _ hnode => hnode
  | elseBranch _ _ _ ih =>
      exact ih (henters.elseBranch (hnodes _ List.mem_cons_self)) fun _ hnode => hnode
  | pass hresolve hentries _ _ _ ih =>
      have hinner := henters.pass (hnodes _ List.mem_cons_self) hresolve hentries
        (List.mem_append_right _ List.mem_cons_self)
      exact ih hinner fun _ hnode => hnode

theorem Script.originates_ofNodes [Addressing] (list : List Node) {vars : List Bytes}
    {block : List Node} {frame : Dict Value} (henters : Enters ns root outset vars block frame)
    (hlist : ∀ node ∈ list, node ∈ block) (chunk : Bytes) (span : Span)
    (h : (chunk, span) ∈ (ofNodes ns list frame).chunks) :
    Originates ns root outset chunk span := by
  rcases List.append_of_mem h with ⟨before, back, hchunks⟩
  have hdoes : (ofNodes ns list frame).Does before span (.offers chunk) := ⟨back, hchunks⟩
  rcases Script.Does.traces_ofNodes list hdoes with ⟨node, inner, hreaches, hspan, hoffers⟩
  rcases hreaches.exists_enters henters hlist with ⟨vars', block', hinner, hnode⟩
  exact ⟨vars', block', inner, node, hinner, hnode, hspan, hoffers⟩

end Origin

end Stencil
