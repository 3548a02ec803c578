import Stencil.Proofs.Path.PointUpdate
import Stencil.Proofs.Render.Delivery
import Stencil.Proofs.Template.Variables
import Stencil.Standard

/-!
# Loop variables

In the body of a loop the loop's variable holds the key and the value of the pass, also
inside of further loops over other variables, and whatever the namespace holds under its
name.  The compiler sets no bound to the length of a variable, though, and beyond the
bound of names no path leads to it.
-/

namespace Stencil

theorem Enters.get?_of_notMem {ns : Dict Value} {root block : List Node}
    {outset frame : Dict Value} {vars : List Bytes}
    (h : Enters ns root outset vars block frame) {var : Bytes} (hfree : var ∉ vars)
    : frame.get? var = outset.get? var := by
  induction h with
  | root =>
      rfl
  | thenBranch _ _ ih =>
      exact ih hfree
  | elseBranch _ _ ih =>
      exact ih hfree
  | pass _ _ _ _ _ ih =>
      rw [List.mem_cons, not_or] at hfree
      rw [passFrame, Dict.get?_replace_of_ne _ _ hfree.left]
      exact ih hfree.right

theorem Enters.get?_passFrame {ns frame reached : Dict Value} {body block : List Node}
    {var : Bytes} {entry : Key × Value} {inner : List Bytes}
    (h : Enters ns body (passFrame frame var entry) inner block reached)
    (hfree : var ∉ inner) :
    reached.get? var = some (.dict (loopBinding entry)) := by
  rw [h.get?_of_notMem hfree, passFrame, Dict.get?_replace_self]

/-!
# Paths to a member of a variable
-/

theorem Directive.separatorFree_of_isVariable {var : Bytes} (h : isVariable var = true) :
    Path.SeparatorFree var := by
  intro b hb
  rcases ((isVariable_iff var).mp h).right b hb with ⟨_, hdot, hbracket, _⟩
  exact ⟨hdot, hbracket⟩

namespace Path

theorem SeparatorFree.spells_member {var field : Bytes} (hfree : SeparatorFree var)
    (hne : var ≠ []) (hshort : var.length < nameBound) (hfield : IsName field) :
    Spells (var ++ Byte.dot :: field) [.name var, .name field] := by
  have hvar : IsName var := by
    rw [isName_iff hfree, nameFault?_eq_none_iff]
    exact ⟨hne, hshort⟩
  have hrest : Continues (Byte.dot :: (field ++ [])) [.name field] :=
    Continues.name hfield Continues.done
  rw [List.append_nil] at hrest
  exact Spells.start hvar hrest

theorem SeparatorFree.lookup_too_long {var rest : Bytes} (hfree : SeparatorFree var)
    (hrest : AtSeparator rest) (hlong : nameBound ≤ var.length) (ns : Dict Value) :
    lookup ns (var ++ rest) =
      .error (.noticed (var ++ rest) 0 (.nameTooLong (var.take 8))) := by
  have hne : var ≠ [] := by
    rintro rfl
    exact absurd hlong (by decide)
  have hfault : nameFault? var = some (.nameTooLong (var.take 8)) := by
    unfold nameFault?
    rw [if_neg (by simpa using hne), if_pos hlong]
  have hread : read (var ++ rest) = .endingIn (.badName 0 (.nameTooLong (var.take 8))) := by
    rw [read, if_neg (by simp [hne]), readFrom_name hfree hrest]
    simp [closeName, hfault]
  rw [lookup, hread]
  rfl

end Path

namespace Rendering

variable {σ ε : Type}

theorem fetch_of_lookup {ns frame : Dict Value} {path : Path} {v : Value}
    (h : lookup frame path = .ok v) (purpose : Lookup) (span : Span) :
    (fetch ns frame path purpose span : Rendering σ ε Value) = pure v := by
  rw [fetch, h]

theorem fetch_of_lookup_error {ns frame : Dict Value} {path : Path} {e e' : PathError}
    (hframe : lookup frame path = .error e) (hns : lookup ns path = .error e')
    (purpose : Lookup) (span : Span) :
    (fetch ns frame path purpose span : Rendering σ ε Value) =
      fail (.lookup purpose e') span := by
  rw [fetch, hframe, hns]

end Rendering

/-!
# The theorem
-/

open Rendering in
/-- In the body of a loop that has been compiled, outside of inner loops over the same
variable, `x.key` and `x.value` are the key and the value of the pass, provided that the
variable is shorter than names may be; otherwise neither is found. -/
theorem loop_variable_resolves_iff_short {source : Bytes} {t : Template}
    (hcompile : Template.compile source = .ok t) {depth : Nat} {branch : Node.Branch}
    {var : Bytes} {iterable : Path} {body : List Node} {span : Span}
    (hloop : (depth, branch, .loop var iterable body span) ∈ t.outline) {ns frame : Dict Value}
    {entry : Key × Value} {inner : List Bytes} {block : List Node} {reached : Dict Value}
    (henters : Enters ns body (passFrame frame var entry) inner block reached)
    (hfree : var ∉ inner) {σ ε : Type} (purpose : Lookup) (place : Span) :
    (var.length < Path.nameBound →
      (fetch ns reached (var ++ Byte.dot :: keyName) purpose place : Rendering σ ε Value) =
          pure entry.1.toValue ∧
        (fetch ns reached (var ++ Byte.dot :: valueName) purpose place : Rendering σ ε Value) =
          pure entry.2) ∧
    (Path.nameBound ≤ var.length → ∀ field : Bytes,
      (fetch ns reached (var ++ Byte.dot :: field) purpose place : Rendering σ ε Value) =
        fail (.lookup purpose
          (.noticed (var ++ Byte.dot :: field) 0 (.nameTooLong (var.take 8)))) place) := by
  have hvar := Template.isVariable_of_compile hcompile hloop
  have hseparators := Directive.separatorFree_of_isVariable hvar
  have hbinding := henters.get?_passFrame hfree
  constructor
  · intro hshort
    have hne := ((Directive.isVariable_iff var).mp hvar).left
    have hmember : ∀ field v, Path.IsName field → (loopBinding entry).get? field = some v →
        lookup reached (var ++ Byte.dot :: field) = .ok v := by
      intro field v hfield hv
      have hspells := hseparators.spells_member hne hshort hfield
      rw [hspells.lookup_eq_ok_iff]
      simp [Value.follow?_cons, Value.member?, hbinding, hv]
    constructor
    · apply fetch_of_lookup
      apply hmember
      · constructor <;> decide
      · rfl
    · apply fetch_of_lookup
      apply hmember
      · constructor <;> decide
      · rfl
  · intro hlong field
    have hrest : Path.AtSeparator (Byte.dot :: field) := by
      intro b hb
      left
      simpa using hb.symm
    have hlookup := hseparators.lookup_too_long hrest hlong
    exact fetch_of_lookup_error (hlookup reached) (hlookup ns) purpose place

def nestedLoops : Bytes :=
  Bytes.ofText
    "\x7b\x7bfor x in v\x7d\x7d\x7b\x7bfor y in x.value\x7d\x7d\x7b\x7bx.key\x7d\x7d" ++
    Bytes.ofText "\x7b\x7bendfor\x7d\x7d\x7b\x7bendfor\x7d\x7d"

def nestedLoopsBody : List Node :=
  [.loop [0x79] (Bytes.ofText "x.value") [.subst (Bytes.ofText "x.key") ⟨1, 34, 43⟩]
    ⟨1, 14, 34⟩]

open Rendering in
/-- The variable of the outer loop is found in the body of the inner one, although the
namespace has an entry of that name. -/
theorem loop_variable_in_inner_loop :
    Template.compile nestedLoops = .ok ⟨[.loop [0x78] [0x76] nestedLoopsBody ⟨1, 0, 14⟩]⟩ ∧
      Enters ⟨[([0x78], .int 9)]⟩ nestedLoopsBody
        (passFrame .empty [0x78] (.index 3, .array [.int 5])) [[0x79]]
        [.subst (Bytes.ofText "x.key") ⟨1, 34, 43⟩]
        (passFrame (passFrame .empty [0x78] (.index 3, .array [.int 5])) [0x79]
          (.index 0, .int 5)) ∧
      (fetch ⟨[([0x78], .int 9)]⟩
        (passFrame (passFrame .empty [0x78] (.index 3, .array [.int 5])) [0x79]
          (.index 0, .int 5))
        (Bytes.ofText "x.key") .substitution ⟨1, 34, 43⟩ : Rendering Recorder Refusal Value) =
          pure (.int 3) := by
  have hcompile : Template.compile nestedLoops =
      .ok ⟨[.loop [0x78] [0x76] nestedLoopsBody ⟨1, 0, 14⟩]⟩ := by
    rfl
  have hloop : (0, .root, .loop [0x78] [0x76] nestedLoopsBody ⟨1, 0, 14⟩) ∈
      Template.outline ⟨[.loop [0x78] [0x76] nestedLoopsBody ⟨1, 0, 14⟩]⟩ := List.mem_cons_self
  have hentries : (Value.array [.int 5]).entries = .ok [(.index 0, .int 5)] := by
    rfl
  have henters : Enters ⟨[([0x78], .int 9)]⟩ nestedLoopsBody
      (passFrame .empty [0x78] (.index 3, .array [.int 5])) [[0x79]] _ _ :=
    Enters.pass Enters.root List.mem_cons_self rfl hentries List.mem_cons_self
  rcases loop_variable_resolves_iff_short hcompile hloop henters (by decide) .substitution
    ⟨1, 34, 43⟩ with ⟨hshort, _⟩
  exact ⟨hcompile, henters, (hshort (by decide)).left⟩

/-!
# A variable beyond the bound
-/

def longVariable : Bytes :=
  List.replicate Path.nameBound 0x78

/-- A loop that writes the key of each pass, with a variable as long as no name may be. -/
def longLoop : Bytes :=
  Bytes.ofText "\x7b\x7bfor " ++ longVariable ++ Bytes.ofText " in v\x7d\x7d\x7b\x7b" ++
    longVariable ++ Bytes.ofText ".key\x7d\x7d\x7b\x7bendfor\x7d\x7d"

def longLoopTemplate : Template :=
  ⟨[.loop longVariable [0x76] [.subst (longVariable ++ Bytes.ofText ".key") ⟨1, 269, 533⟩]
    ⟨1, 0, 269⟩]⟩

set_option maxRecDepth 10000 in
open Rendering in
/-- The loop compiles, but in its first pass over an array the key is not found. -/
theorem long_loop_variable_unresolved :
    Template.compile longLoop = .ok longLoopTemplate ∧
      (Value.array [.int 7]).entries = .ok [(.index 0, .int 7)] ∧
      (fetch ⟨[([0x76], .array [.int 7])]⟩ (passFrame .empty longVariable (.index 0, .int 7))
        (longVariable ++ Bytes.ofText ".key") .substitution ⟨1, 269, 533⟩ :
          Rendering Recorder Refusal Value) =
        fail (.lookup .substitution ⟨.nameTooLong (Bytes.ofText "xxxxxxxx"), 0, []⟩)
          ⟨1, 269, 533⟩ ∧
      longLoopTemplate.render ⟨[([0x76], .array [.int 7])]⟩ =
        .error ⟨.lookup .substitution ⟨.nameTooLong (Bytes.ofText "xxxxxxxx"), 0, []⟩,
          ⟨1, 269, 533⟩⟩ := by
  refine ⟨?_, ?_, ?_, ?_⟩
  · rfl
  · rfl
  · rfl
  · rfl

end Stencil
