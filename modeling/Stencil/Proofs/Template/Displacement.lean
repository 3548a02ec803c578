import Stencil.Proofs.Template.Builder

/-!
# Sources behind others

The compiler reads a source that stands behind another as it reads it by itself,
but for the positions: offsets are larger by the length of what stands in front,
and lines by its newlines.
-/

namespace Stencil

/-!
# Displaced spans
-/

/-- The span with `front` in front of its source. -/
def Span.behind (front : Bytes) (span : Span) : Span :=
  ⟨Bytes.countNewlines front + span.line, front.length + span.start, front.length + span.stop⟩

def Piece.behind (front : Bytes) : Piece → Piece
  | .text bytes span => .text bytes (span.behind front)
  | .directive content span => .directive content (span.behind front)

namespace Node

mutual

def behind (front : Bytes) : Node → Node
  | .text bytes span => .text bytes (span.behind front)
  | .subst path span => .subst path (span.behind front)
  | .cond condition thenBranch elseBranch span =>
    .cond condition (allBehind front thenBranch) (allBehind front elseBranch)
      (span.behind front)
  | .loop var iterable body span =>
    .loop var iterable (allBehind front body) (span.behind front)

def allBehind (front : Bytes) : List Node → List Node
  | [] => []
  | node :: rest => behind front node :: allBehind front rest

end

theorem allBehind_eq_map (front : Bytes) (nodes : List Node) :
    allBehind front nodes = nodes.map (behind front) := by
  induction nodes with
  | nil =>
      rfl
  | cons node rest ih =>
      rw [allBehind, ih, List.map_cons]

end Node

namespace Fragment

theorem toPiece_behind (front : Bytes) (fragment : Fragment) (span : Span) :
    (fragment.toPiece span).behind front = fragment.toPiece (span.behind front) := by
  cases fragment with
  | text bytes =>
      rfl
  | directive content =>
      rfl

theorem place_behind (front : Bytes) (offset line : Nat) (fragments : List Fragment) :
    place (front.length + offset) (Bytes.countNewlines front + line) fragments =
      (place offset line fragments).map (Piece.behind front) := by
  induction fragments generalizing offset line with
  | nil =>
      rfl
  | cons fragment rest ih =>
      rw [place, place, List.map_cons, toPiece_behind, Nat.add_assoc, Nat.add_assoc, ih]
      rfl

end Fragment

/-!
# Displaced builders
-/

namespace Log

variable {α β : Type}

def map (f : α → β) (log : Log α) : Log β where
  backwards := log.backwards.map f
  size := log.size
  size_eq := by
    rw [List.length_map, log.size_eq]

@[simp]
theorem toList_map (f : α → β) (log : Log α) : (log.map f).toList = log.toList.map f := by
  simp [map, toList]

@[simp]
theorem map_append (f : α → β) (log : Log α) (items : List α) :
    (log.append items).map f = (log.map f).append (items.map f) := by
  simp [map, append]

end Log

namespace OpenBlock

def behind (front : Bytes) : OpenBlock → OpenBlock
  | .cond condition thenBranch elseBranch span =>
    .cond condition (thenBranch.map (Node.behind front))
      (elseBranch.map (Log.map (Node.behind front))) (span.behind front)
  | .loop var iterable body span =>
    .loop var iterable (body.map (Node.behind front)) (span.behind front)

theorem kind_behind (front : Bytes) (block : OpenBlock) :
    (block.behind front).kind = block.kind := by
  cases block with
  | cond condition thenBranch elseBranch span =>
      rfl
  | loop var iterable body span =>
      rfl

theorem add_behind (front : Bytes) (block : OpenBlock) (node : Node) :
    (block.add node).behind front = (block.behind front).add (node.behind front) := by
  rcases block with ⟨condition, thenBranch, _ | elseBranch, span⟩ | ⟨var, iterable, body, span⟩
  · simp [add, behind]
  · simp [add, behind]
  · simp [add, behind]

theorem close_behind (front : Bytes) (block : OpenBlock) :
    block.close.behind front = (block.behind front).close := by
  rcases block with ⟨condition, thenBranch, _ | elseBranch, span⟩ | ⟨var, iterable, body, span⟩
  · simp [close, behind, Node.behind, Node.allBehind_eq_map]
  · simp [close, behind, Node.behind, Node.allBehind_eq_map]
  · simp [close, behind, Node.behind, Node.allBehind_eq_map]

end OpenBlock

/-- What the second builder has read is what the first one has read with `front` in front
of it.  Before that they have made other nodes. -/
structure Builder.Behind (front : Bytes) (before others : List Node) (b b' : Builder)
    : Prop where
  root : ∃ nodes, b.root.toList = before ++ nodes ∧
    b'.root.toList = others ++ nodes.map (Node.behind front)
  stack : b'.stack = b.stack.map (OpenBlock.behind front)

namespace Builder.Behind

variable {front : Bytes} {before others : List Node} {b b' : Builder}

theorem of_addAll (front : Bytes) (h : b.stack = []) (before added : List Node) :
    Behind front before (b.root.toList ++ added) (({} :
      Builder).addAll before) (b.addAll added) := by
  rcases b with ⟨root, stack⟩
  cases h
  constructor
  · refine ⟨[], ?_, ?_⟩
    · simp [addAll]
    · simp [addAll]
  · rfl

theorem add (h : Behind front before others b b') (node : Node) :
    Behind front before others (b.add node) (b'.add (node.behind front)) := by
  rcases h with ⟨⟨nodes, hroot, hroot'⟩, hstack⟩
  rcases b with ⟨root, _ | ⟨block, stack⟩⟩
  · rcases b' with ⟨root', stack'⟩
    cases hstack
    constructor
    · refine ⟨nodes ++ [node], ?_, ?_⟩
      · simp only [Builder.add, Log.toList_append, hroot, List.append_assoc]
      · simp only [Builder.add, Log.toList_append, hroot', List.append_assoc, List.map_append]
        rfl
    · rfl
  · rcases b' with ⟨root', stack'⟩
    cases hstack
    constructor
    · exact ⟨nodes, hroot, hroot'⟩
    · simp only [Builder.add, List.map_cons, OpenBlock.add_behind]

theorem push (h : Behind front before others b b') (block : OpenBlock) :
    Behind front before others (b.push block) (b'.push (block.behind front)) := by
  constructor
  · exact h.root
  · rw [Builder.push, Builder.push, List.map_cons, h.stack]

theorem close (h : Behind front before others b b') {word : Continuation} {next : Builder}
    (hclose : b.close word = .ok next) :
    ∃ next', b'.close word = .ok next' ∧ Behind front before others next next' := by
  rcases h with ⟨hroot, hstack⟩
  rcases b with ⟨root, _ | ⟨block, stack⟩⟩
  · cases hclose
  · rcases b' with ⟨root', stack'⟩
    cases hstack
    simp only [Builder.close] at hclose ⊢
    split at hclose
    · rename_i hkind
      cases hclose
      have hkind' : (block.behind front).kind = word.block := by
        rw [OpenBlock.kind_behind, hkind]
      have hrest : Behind front before others ⟨root, stack⟩
          ⟨root', stack.map (OpenBlock.behind front)⟩ := ⟨hroot, rfl⟩
      refine ⟨_, if_pos hkind', ?_⟩
      rw [← OpenBlock.close_behind]
      exact hrest.add block.close
    · cases hclose

theorem otherwise (h : Behind front before others b b') {next : Builder}
    (hstep : b.otherwise = .ok next) :
    ∃ next', b'.otherwise = .ok next' ∧ Behind front before others next next' := by
  rcases h with ⟨hroot, hstack⟩
  rcases b' with ⟨root', stack'⟩
  rcases b with ⟨root, _ | ⟨⟨condition, thenBranch, _ | elseBranch, span⟩ | _, stack⟩⟩
  · cases hstep
  · cases hstep
    cases hstack
    exact ⟨_, rfl, hroot, rfl⟩
  · cases hstep
  · cases hstep

theorem directive (h : Behind front before others b b') {span : Span} {d : Directive}
    {next : Builder} (hstep : b.directive span d = .ok next) :
    ∃ next', b'.directive (span.behind front) d = .ok next' ∧
      Behind front before others next next' := by
  cases d with
  | comment =>
      cases hstep
      exact ⟨b', rfl, h⟩
  | escape braces =>
      cases hstep
      exact ⟨_, rfl, h.add (.text braces span)⟩
  | subst path =>
      cases hstep
      exact ⟨_, rfl, h.add (.subst path span)⟩
  | openCond condition =>
      cases hstep
      exact ⟨_, rfl, h.push (.cond condition .empty none span)⟩
  | openLoop var iterable =>
      cases hstep
      exact ⟨_, rfl, h.push (.loop var iterable .empty span)⟩
  | continuation word =>
      cases word with
      | otherwise =>
          exact h.otherwise hstep
      | endCond =>
          exact h.close hstep
      | endLoop =>
          exact h.close hstep

theorem piece (h : Behind front before others b b') {piece : Piece} {next : Builder}
    (hstep : b.piece piece = .ok next) :
    ∃ next', b'.piece (piece.behind front) = .ok next' ∧
      Behind front before others next next' := by
  cases piece with
  | text bytes span =>
      cases hstep
      exact ⟨_, rfl, h.add (.text bytes span)⟩
  | directive content span =>
      rw [Builder.piece] at hstep
      cases hread : Directive.read content with
      | error fault =>
          rw [hread] at hstep
          cases hstep
      | ok d =>
          rw [hread, Except.bind] at hstep
          cases hdirective : b.directive span d with
          | error fault =>
              rw [hdirective] at hstep
              cases hstep
          | ok after =>
              rw [hdirective] at hstep
              cases hstep
              rcases h.directive hdirective with ⟨next', hnext, hbehind⟩
              refine ⟨next', ?_, hbehind⟩
              rw [Piece.behind, Builder.piece, hread, Except.bind, hnext]
              rfl

theorem foldlM (h : Behind front before others b b') {pieces : List Piece} {last : Builder}
    (hfold : pieces.foldlM Builder.piece b = .ok last) :
    ∃ last', (pieces.map (Piece.behind front)).foldlM Builder.piece b' = .ok last' ∧
      Behind front before others last last' := by
  induction pieces generalizing b b' with
  | nil =>
      cases hfold
      exact ⟨b', rfl, h⟩
  | cons piece rest ih =>
      rcases (foldlM_cons_eq_ok_iff piece rest b last).mp hfold with ⟨next, hstep, hrest⟩
      rcases h.piece hstep with ⟨next', hnext, hbehind⟩
      rw [List.map_cons, foldlM_cons_of_ok hnext]
      exact ih hbehind hrest

end Builder.Behind

end Stencil
