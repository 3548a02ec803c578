import Stencil.Proofs.Path.Root
import Stencil.Template

/-!
# Trees with a variable renamed

Renaming reaches the roots of the paths in the body of a loop, up to where an inner loop
takes the variable over.
-/

namespace Stencil
namespace Node

/-!
# Renaming
-/

mutual

/-- With the root `y` instead of `x` in all paths that are in the
scope of an outer `x`. -/
def rename (x y : Bytes) : Node → Node
  | .text bytes span => .text bytes span
  | .subst path span => .subst (path.rename x y) span
  | .cond condition thenBranch elseBranch span =>
    .cond (condition.rename x y) (renameAll x y thenBranch) (renameAll x y elseBranch) span
  | .loop var iterable body span =>
    .loop var (iterable.rename x y) (if var = x then body else renameAll x y body) span

def renameAll (x y : Bytes) : List Node → List Node
  | [] => []
  | node :: rest => node.rename x y :: renameAll x y rest

end

mutual

theorem rename_self (x : Bytes) : (node : Node) → node.rename x x = node := by
  intro node
  cases node with
  | text bytes span =>
      rfl
  | subst path span =>
      rw [rename, Path.rename_self]
  | cond condition thenBranch elseBranch span =>
      rw [rename, Path.rename_self, renameAll_self x thenBranch, renameAll_self x elseBranch]
  | loop var iterable body span =>
      rw [rename, Path.rename_self, renameAll_self x body, ite_self]

theorem renameAll_self (x : Bytes) : (nodes : List Node) → renameAll x x nodes = nodes := by
  intro nodes
  cases nodes with
  | nil =>
      rfl
  | cons node rest =>
      rw [renameAll, rename_self x node, renameAll_self x rest]

end

mutual

def Avoids (y : Bytes) : Node → Prop
  | .text _ _ => True
  | .subst path _ => path.root ≠ y
  | .cond condition thenBranch elseBranch _ =>
    condition.root ≠ y ∧ AvoidsAll y thenBranch ∧ AvoidsAll y elseBranch
  | .loop var iterable body _ => var ≠ y ∧ iterable.root ≠ y ∧ AvoidsAll y body

def AvoidsAll (y : Bytes) : List Node → Prop
  | [] => True
  | node :: rest => node.Avoids y ∧ AvoidsAll y rest

end

/-!
# Exchanging a node
-/

/-- One node of a list of trees, at whatever depth, is exchanged for another. -/
inductive Replaced (node node' : Node) : List Node → List Node → Prop where
  | here {rest : List Node} : Replaced node node' (node :: rest) (node' :: rest)
  | later {first : Node} {rest rest' : List Node} :
      Replaced node node' rest rest' → Replaced node node' (first :: rest) (first :: rest')
  | thenBranch {condition : Path} {thenBranch thenBranch' elseBranch rest : List Node}
      {span : Span} :
      Replaced node node' thenBranch thenBranch' →
      Replaced node node' (.cond condition thenBranch elseBranch span :: rest)
        (.cond condition thenBranch' elseBranch span :: rest)
  | elseBranch {condition : Path} {thenBranch elseBranch elseBranch' rest : List Node}
      {span : Span} :
      Replaced node node' elseBranch elseBranch' →
      Replaced node node' (.cond condition thenBranch elseBranch span :: rest)
        (.cond condition thenBranch elseBranch' span :: rest)
  | body {var : Bytes} {iterable : Path} {body body' rest : List Node} {span : Span} :
      Replaced node node' body body' →
      Replaced node node' (.loop var iterable body span :: rest)
        (.loop var iterable body' span :: rest)

theorem Replaced.eq_self {node : Node} {list list' : List Node}
    (h : Replaced node node list list') : list' = list := by
  induction h with
  | here =>
      rfl
  | later _ ih =>
      rw [ih]
  | thenBranch _ ih =>
      rw [ih]
  | elseBranch _ ih =>
      rw [ih]
  | body _ ih =>
      rw [ih]

theorem Replaced.avoids {y : Bytes} {node node' : Node} {list list' : List Node}
    (h : Replaced node node' list list') (havoids : AvoidsAll y list) : node.Avoids y := by
  induction h with
  | here =>
      exact havoids.left
  | later _ ih =>
      exact ih havoids.right
  | thenBranch _ ih =>
      exact ih havoids.left.right.left
  | elseBranch _ ih =>
      exact ih havoids.left.right.right
  | body _ ih =>
      exact ih havoids.left.right.right

mutual

theorem exists_replaced_of_outline (node node' : Node) :
    ∀ (root : Node) {depth place : Nat} {branch position : Branch} (rest : List Node),
      (place, position, node) ∈ outline depth branch root →
      ∃ list', Replaced node node' (root :: rest) list' := by
  intro root depth place branch position rest h
  cases root with
  | text bytes span =>
      cases List.mem_singleton.mp h
      exact ⟨_, Replaced.here⟩
  | subst path span =>
      cases List.mem_singleton.mp h
      exact ⟨_, Replaced.here⟩
  | cond condition thenBranch elseBranch span =>
      rw [outline, List.mem_cons, List.mem_append] at h
      rcases h with hroot | hthen | helse
      · cases hroot
        exact ⟨_, Replaced.here⟩
      · rcases exists_replaced_of_outlineAll node node' thenBranch hthen with ⟨_, hreplaced⟩
        exact ⟨_, hreplaced.thenBranch⟩
      · rcases exists_replaced_of_outlineAll node node' elseBranch helse with ⟨_, hreplaced⟩
        exact ⟨_, hreplaced.elseBranch⟩
  | loop var iterable body span =>
      rw [outline, List.mem_cons] at h
      rcases h with hroot | hbody
      · cases hroot
        exact ⟨_, Replaced.here⟩
      · rcases exists_replaced_of_outlineAll node node' body hbody with ⟨_, hreplaced⟩
        exact ⟨_, hreplaced.body⟩

theorem exists_replaced_of_outlineAll (node node' : Node) :
    ∀ (list : List Node) {depth place : Nat} {branch position : Branch},
      (place, position, node) ∈ outlineAll depth branch list →
      ∃ list', Replaced node node' list list' := by
  intro list depth place branch position h
  cases list with
  | nil =>
      cases h
  | cons first rest =>
      rw [outlineAll, List.mem_append] at h
      rcases h with hfirst | hrest
      · exact exists_replaced_of_outline node node' first rest hfirst
      · rcases exists_replaced_of_outlineAll node node' rest hrest with ⟨_, hreplaced⟩
        exact ⟨_, hreplaced.later⟩

end

end Node
end Stencil
