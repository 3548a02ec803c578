import Stencil.Proofs.Template.Fragment
import Stencil.Proofs.Template.Words

/-!
# The grammar of templates

A template is a sequence of text, escapes, comments, substitutions and blocks, where a
block encloses templates again.  A derivation says which tree a source stands for;
spans are left out of it.
-/

namespace Stencil

/-!
# Trees
-/

inductive Tree where
  | text (bytes : Bytes)
  | subst (path : Path)
  | cond (condition : Path) (thenBranch elseBranch : List Tree)
  | loop (var : Bytes) (iterable : Path) (body : List Tree)

namespace Node

mutual

def shape : Node → Tree
  | .text bytes _ => .text bytes
  | .subst path _ => .subst path
  | .cond condition thenBranch elseBranch _ =>
    .cond condition (shapes thenBranch) (shapes elseBranch)
  | .loop var iterable body _ => .loop var iterable (shapes body)

def shapes : List Node → List Tree
  | [] => []
  | node :: rest => shape node :: shapes rest

end

@[simp]
theorem shapes_append (front back : List Node) :
    shapes (front ++ back) = shapes front ++ shapes back := by
  induction front with
  | nil =>
      rfl
  | cons node front ih =>
      rw [List.cons_append, shapes, shapes, ih, List.cons_append]

end Node

def Template.shape (t : Template) : List Tree :=
  Node.shapes t.nodes

/-!
# Grammar
-/

inductive Derives : List Fragment → List Tree → Prop where
  | nil : Derives [] []
  | text {bytes : Bytes} {rest : List Fragment} {trees : List Tree} :
      Derives rest trees → Derives (.text bytes :: rest) (.text bytes :: trees)
  | comment {content : Bytes} {rest : List Fragment} {trees : List Tree} :
      Directive.Reads content .comment → Derives rest trees →
      Derives (.directive content :: rest) trees
  | escape {content braces : Bytes} {rest : List Fragment} {trees : List Tree} :
      Directive.Reads content (.escape braces) → Derives rest trees →
      Derives (.directive content :: rest) (.text braces :: trees)
  | subst {content : Bytes} {path : Path} {rest : List Fragment} {trees : List Tree} :
      Directive.Reads content (.subst path) → Derives rest trees →
      Derives (.directive content :: rest) (.subst path :: trees)
  | cond {opening closing : Bytes} {condition : Path} {inner rest : List Fragment}
      {thenBranch trees : List Tree} :
      Directive.Reads opening (.openCond condition) → Derives inner thenBranch →
      Directive.Reads closing (.continuation .endCond) → Derives rest trees →
      Derives (.directive opening :: (inner ++ .directive closing :: rest))
        (.cond condition thenBranch [] :: trees)
  | condElse {opening middle closing : Bytes} {condition : Path}
      {first second rest : List Fragment} {thenBranch elseBranch trees : List Tree} :
      Directive.Reads opening (.openCond condition) → Derives first thenBranch →
      Directive.Reads middle (.continuation .otherwise) → Derives second elseBranch →
      Directive.Reads closing (.continuation .endCond) → Derives rest trees →
      Derives
        (.directive opening ::
          (first ++ .directive middle :: (second ++ .directive closing :: rest)))
        (.cond condition thenBranch elseBranch :: trees)
  | loop {opening closing var : Bytes} {iterable : Path} {inner rest : List Fragment}
      {body trees : List Tree} :
      Directive.Reads opening (.openLoop var iterable) → Derives inner body →
      Directive.Reads closing (.continuation .endLoop) → Derives rest trees →
      Derives (.directive opening :: (inner ++ .directive closing :: rest))
        (.loop var iterable body :: trees)

def Generates (bytes : Bytes) (trees : List Tree) : Prop :=
  ∃ fragments, Fragment.Cuts bytes fragments ∧ Derives fragments trees

end Stencil
