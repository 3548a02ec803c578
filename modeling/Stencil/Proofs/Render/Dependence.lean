import Stencil.Proofs.Path.Root
import Stencil.Proofs.Render.Delivery
import Stencil.Standard

/-!
# What a rendering depends on

A rendering asks the namespace for nothing but the paths that its template holds.  Two
namespaces that are looked up alike there give the same output; for a rendering that
succeeds it is enough that what it finds in the one is found in the other.
-/

namespace Stencil

/-!
# The paths of a template
-/

namespace Node

mutual

def paths : Node → List Path
  | .text _ _ => []
  | .subst path _ => [path]
  | .cond condition thenBranch elseBranch _ =>
    condition :: (allPaths thenBranch ++ allPaths elseBranch)
  | .loop _ iterable body _ => iterable :: allPaths body

def allPaths : List Node → List Path
  | [] => []
  | node :: rest => paths node ++ allPaths rest

end

end Node

def Template.paths (t : Template) : List Path :=
  Node.allPaths t.nodes

namespace Script

/-!
# Scripts side by side

Both ways of comparing two renderings compare their scripts part by part.
-/

/-- A relation of scripts that holds of joined scripts when it holds of their parts. -/
structure Joins (R : Script → Script → Prop) : Prop where
  refl : ∀ script, R script script
  andThen : ∀ {first first' second second' : Script}, R first first' → R second second' →
    R (first.andThen second) (first'.andThen second')

theorem Joins.all {R : Script → Script → Prop} (hR : Joins R) {α : Type}
    {script script' : α → Script} (entries : List α)
    (h : ∀ entry ∈ entries, R (script entry) (script' entry)) :
    R (Script.all (entries.map script)) (Script.all (entries.map script')) := by
  induction entries with
  | nil =>
      exact hR.refl _
  | cons entry rest ih =>
      rw [List.forall_mem_cons] at h
      exact hR.andThen h.left (ih h.right)

/-- Whatever is done with the values of these paths, the relation holds of the scripts
that go on with them in the one namespace or the other. -/
def RelatesPaths (R : Script → Script → Prop) (ns ns' : Dict Value) (paths : List Path)
    : Prop :=
  ∀ path ∈ paths, ∀ frame purpose span (next next' : Value → Script),
    (∀ v, R (next v) (next' v)) →
      R (resolving ns frame path purpose span next)
        (resolving ns' frame path purpose span next')

section Comparison

variable {R : Script → Script → Prop} {ns ns' : Dict Value}

mutual

theorem relates_ofNode [Addressing] (hR : Joins R) :
    ∀ (node : Node), RelatesPaths R ns ns' node.paths →
      ∀ frame, R (ofNode ns node frame) (ofNode ns' node frame) := by
  intro node hpaths frame
  cases node with
  | text bytes span =>
      exact hR.refl _
  | subst path span =>
      rw [ofNode, ofNode]
      apply hpaths path List.mem_cons_self
      exact fun v => hR.refl _
  | cond condition thenBranch elseBranch span =>
      rw [RelatesPaths, Node.paths, List.forall_mem_cons, List.forall_mem_append] at hpaths
      rcases hpaths with ⟨hcondition, hthen, helse⟩
      rw [ofNode, ofNode]
      apply hcondition
      intro v
      split
      · exact relates_ofNodes hR thenBranch hthen frame
      · exact relates_ofNodes hR elseBranch helse frame
  | loop var iterable body span =>
      rw [RelatesPaths, Node.paths, List.forall_mem_cons] at hpaths
      rcases hpaths with ⟨hiterable, hbody⟩
      rw [ofNode, ofNode]
      apply hiterable
      intro v
      cases v.entries with
      | error e =>
          exact hR.refl _
      | ok entries =>
          apply hR.all
          intro entry _
          exact relates_ofNodes hR body hbody (passFrame frame var entry)

theorem relates_ofNodes [Addressing] (hR : Joins R) :
    ∀ (nodes : List Node), RelatesPaths R ns ns' (Node.allPaths nodes) →
      ∀ frame, R (ofNodes ns nodes frame) (ofNodes ns' nodes frame) := by
  intro nodes hpaths frame
  cases nodes with
  | nil =>
      exact hR.refl _
  | cons node rest =>
      rw [RelatesPaths, Node.allPaths, List.forall_mem_append] at hpaths
      rw [ofNodes, ofNodes]
      exact hR.andThen (relates_ofNode hR node hpaths.left frame)
        (relates_ofNodes hR rest hpaths.right frame)

end

end Comparison

/-!
# The same script
-/

theorem joins_eq : Joins (· = ·) := by
  constructor
  · intro script
    rfl
  · intro first first' second second' h h'
    rw [h, h']

theorem relatesPaths_eq {ns ns' : Dict Value} {paths : List Path}
    (h : ∀ path ∈ paths, lookup ns path = lookup ns' path) :
    RelatesPaths (· = ·) ns ns' paths := by
  intro path hpath frame purpose span next next' hnext
  have hnext : next = next' := funext hnext
  rw [resolving, resolving, resolve, resolve, h path hpath, hnext]

/-- Unless the first script ends early, the second one is the same. -/
def Follows (first second : Script) : Prop :=
  first.ending = .ok () → second = first

theorem joins_follows : Joins Follows := by
  constructor
  · intro script _
    rfl
  · intro first first' second second' h h' hending
    cases hfirst : first.ending with
    | error e =>
        have hjoined : first.andThen second = first := by
          rw [andThen, hfirst]
        rw [hjoined, hfirst] at hending
        cases hending
    | ok done =>
        have hjoined : (first.andThen second).ending = second.ending := by
          rw [andThen, hfirst]
        rw [hjoined] at hending
        rw [h hfirst, h' hending]

/-- A path that is found in the frame does not ask the namespace, and one that the first
namespace has to give is not missing in the second one. -/
theorem relatesPaths_follows {ns ns' : Dict Value} {paths : List Path}
    (h : ∀ path ∈ paths, ∀ v, lookup ns path = .ok v → lookup ns' path = .ok v) :
    RelatesPaths Follows ns ns' paths := by
  intro path hpath frame purpose span next next' hnext hending
  unfold resolving resolve at hending ⊢
  cases hframe : lookup frame path with
  | ok v =>
      simp only [hframe] at hending ⊢
      exact hnext v hending
  | error _ =>
      cases hns : lookup ns path with
      | ok v =>
          simp only [hframe, hns] at hending ⊢
          rw [h path hpath v hns]
          exact hnext v hending
      | error e =>
          simp only [hframe, hns] at hending
          cases hending

theorem ending_of_play_ok {σ ε : Type} {script : Script} {sink : Sink σ ε} {state : σ}
    (h : (script.play sink state).2 = .ok ()) : script.ending = .ok () := by
  rw [play] at h
  rcases hfeed : sink.feed state script.chunks with ⟨next, e | _⟩
  · rw [hfeed] at h
    cases h
  · rw [hfeed] at h
    cases hending : script.ending with
    | ok done =>
        rfl
    | error e =>
        rw [hending] at h
        cases h

end Script

/-!
# The same output
-/

namespace Template

/-- Every sink is offered the same chunks, and the rendering has the same result. -/
def SameOutput [Addressing] (t : Template) (ns ns' : Dict Value) : Prop :=
  (t.script ns').chunks = (t.script ns).chunks ∧
    ∀ {σ ε : Type} (sink : Sink σ ε) (state : σ),
      t.renderTo sink state ns' = t.renderTo sink state ns

theorem sameOutput_of_script_eq [Addressing] {t : Template} {ns ns' : Dict Value}
    (h : t.script ns' = t.script ns) : t.SameOutput ns ns' := by
  constructor
  · rw [h]
  · intro σ ε sink state
    rw [renderTo_eq_play, renderTo_eq_play, h]

theorem sameOutput_of_lookup_eq [Addressing] {t : Template} {ns ns' : Dict Value}
    (h : ∀ path ∈ t.paths, lookup ns path = lookup ns' path) : t.SameOutput ns ns' :=
  sameOutput_of_script_eq
    (Script.relates_ofNodes Script.joins_eq t.nodes (Script.relatesPaths_eq h) .empty).symm

theorem sameOutput_of_ok [Addressing] {t : Template} {ns ns' : Dict Value}
    (h : ∀ path ∈ t.paths, ∀ v, lookup ns path = .ok v → lookup ns' path = .ok v) {σ ε : Type}
    {sink : Sink σ ε} {state : σ} (hok : (t.renderTo sink state ns).2 = .ok ()) :
    t.SameOutput ns ns' := by
  rw [renderTo_eq_play] at hok
  have hfollows := Script.relates_ofNodes Script.joins_follows t.nodes
    (Script.relatesPaths_follows h) .empty
  exact sameOutput_of_script_eq (hfollows (Script.ending_of_play_ok hok))

end Template

/-!
# The theorem
-/

/-- When all paths of a template have the same look-ups in two namespaces, be they values
or errors, it is rendered alike against both.  When it has been rendered against the
first one without an error, it is enough that the second one gives the same values.  So
neither the order of a namespace's entries matters, nor entries that no path of the
template begins with. -/
theorem rendering_depends_on_paths [Addressing] (t : Template) (ns ns' : Dict Value) :
    ((∀ path ∈ t.paths, lookup ns path = lookup ns' path) → t.SameOutput ns ns') ∧
    ((∀ path ∈ t.paths, ∀ v, lookup ns path = .ok v → lookup ns' path = .ok v) →
      ∀ {σ ε : Type} (sink : Sink σ ε) (state : σ),
        (t.renderTo sink state ns).2 = .ok () → t.SameOutput ns ns') ∧
    (∀ added, ns'.Distinct → ns'.entries.Perm (ns.entries ++ added) →
      (∀ e ∈ added, ∀ path ∈ t.paths, e.1 ≠ path.root) → t.SameOutput ns ns') := by
  refine ⟨Template.sameOutput_of_lookup_eq, ?_, ?_⟩
  · intro h σ ε sink state hok
    exact Template.sameOutput_of_ok h hok
  · intro added hdistinct hperm hunread
    apply Template.sameOutput_of_lookup_eq
    intro path hpath
    apply Path.lookup_congr_root
    symm
    apply hdistinct.get?_of_perm hperm
    intro e he
    exact hunread e he path hpath

def valueList : Template :=
  ⟨[.loop [0x78] [0x76] [.subst (Bytes.ofText "x.value") ⟨1, 14, 25⟩,
    .subst [0x6E] ⟨1, 25, 30⟩]
    ⟨1, 0, 14⟩]⟩

/-- An entry that is not read is put in front of two others, which change places. -/
theorem valueList_ignores_entry :
    valueList.paths = [[0x76], Bytes.ofText "x.value", [0x6E]] ∧
      valueList.SameOutput
        ⟨[([0x76], .array [.int 1, .int 2]), ([0x6E], .string [0x2E])]⟩
        ⟨[([0x75], .int 5), ([0x6E], .string [0x2E]), ([0x76], .array [.int 1, .int 2])]⟩ := by
  have hpaths : valueList.paths = [[0x76], Bytes.ofText "x.value", [0x6E]] := by
    rfl
  refine ⟨hpaths,
    (rendering_depends_on_paths valueList _ _).right.right [([0x75], .int 5)] ?_ ?_ ?_⟩
  · rw [Dict.Distinct]
    decide
  · decide
  · rw [hpaths]
    decide

end Stencil
