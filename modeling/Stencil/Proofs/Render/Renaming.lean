import Stencil.Proofs.Render.LoopVariable
import Stencil.Proofs.Template.Renaming
import Stencil.Standard

/-!
# Renaming a loop variable

A loop variable is known in the body of its loop only, as far as no inner loop takes it
over.  Under another name that the template does not use, the loop offers the same chunks.
-/

namespace Stencil

/-!
# Scripts alike
-/

namespace Script

/-- Both scripts offer the same chunks, and either both or neither of them ends early. -/
structure Alike (first second : Script) : Prop where
  chunks : first.chunks = second.chunks
  ending : first.ending = .ok () ↔ second.ending = .ok ()

namespace Alike

theorem refl (script : Script) : script.Alike script := ⟨rfl, Iff.rfl⟩

theorem symm {first second : Script} (h : first.Alike second) : second.Alike first :=
  ⟨h.chunks.symm, h.ending.symm⟩

theorem stop (fault fault' : ScriptFault) (span span' : Span) :
    (Script.stop fault span).Alike (Script.stop fault' span') :=
      ⟨rfl, iff_of_false nofun nofun⟩

theorem andThen {first first' second second' : Script} (h : first.Alike first')
    (h' : second.Alike second') : (first.andThen second).Alike (first'.andThen second') := by
  rcases first with ⟨chunks, ending⟩
  rcases first' with ⟨chunks', ending'⟩
  have hchunks : chunks = chunks' := h.chunks
  have hending : ending = .ok () ↔ ending' = .ok () := h.ending
  subst hchunks
  cases ending with
  | ok done =>
      have hok := hending.mp rfl
      subst hok
      exact ⟨congrArg (chunks ++ ·) h'.chunks, h'.ending⟩
  | error e =>
      cases ending' with
      | ok done =>
          cases hending.mpr rfl
      | error e' =>
          exact h

theorem all {α : Type} {script script' : α → Script} (entries : List α)
    (h : ∀ entry ∈ entries, (script entry).Alike (script' entry)) :
    (Script.all (entries.map script)).Alike (Script.all (entries.map script')) := by
  induction entries with
  | nil =>
      exact refl _
  | cons entry rest ih =>
      rw [List.forall_mem_cons] at h
      exact h.left.andThen (ih h.right)

theorem resolving {ns frame frame' : Dict Value} {path path' : Path}
    (h : ∀ v, resolve ns frame path = .ok v ↔ resolve ns frame' path' = .ok v)
    (purpose : Lookup) (span : Span) {next next' : Value → Script}
    (hnext : ∀ v, (next v).Alike (next' v)) :
    (Script.resolving ns frame path purpose span next).Alike
      (Script.resolving ns frame' path' purpose span next') := by
  unfold Script.resolving
  cases hfirst : resolve ns frame path with
  | ok v =>
      rw [(h v).mp hfirst]
      exact hnext v
  | error e =>
      cases hsecond : resolve ns frame' path' with
      | ok v =>
          have hok := (h v).mpr hsecond
          rw [hfirst] at hok
          cases hok
      | error e' =>
          exact stop _ _ _ _

theorem play {σ ε : Type} {first second : Script} (h : first.Alike second) (sink : Sink σ ε)
    (state : σ) :
    (first.play sink state).1 = (second.play sink state).1 ∧
      ((first.play sink state).2 = .ok () ↔ (second.play sink state).2 = .ok ()) := by
  rw [Script.play, Script.play, h.chunks]
  rcases sink.feed state second.chunks with ⟨next, e | _⟩
  · exact ⟨rfl, Iff.rfl⟩
  · refine ⟨rfl, ?_⟩
    have hending := h.ending
    cases hfirst : first.ending with
    | ok done =>
        rw [hending.mp hfirst]
    | error e =>
        cases hsecond : second.ending with
        | ok done =>
            rw [hending.mpr hsecond] at hfirst
            cases hfirst
        | error e' =>
            apply iff_of_false
            · intro h
              cases h
            · intro h
              cases h

end Alike
end Script

/-!
# Frames that differ in one name
-/

def AgreeOff (y : Bytes) (frame frame' : Dict Value) : Prop :=
  ∀ key, key ≠ y → frame.get? key = frame'.get? key

/-- What the first frame holds under `x`, the second one holds under `y`;
otherwise they hold the same. -/
structure Rebinds (x y : Bytes) (frame frame' : Dict Value) : Prop where
  bound : frame.get? x = frame'.get? y
  others : ∀ key, key ≠ x → key ≠ y → frame.get? key = frame'.get? key

theorem get?_passFrame (frame : Dict Value) (var : Bytes) (entry : Key × Value) (key : Bytes) :
    (passFrame frame var entry).get? key =
      if key = var then some (.dict (loopBinding entry)) else frame.get? key := by
  rw [passFrame]
  split
  · rename_i h
    rw [h, Dict.get?_replace_self]
  · rename_i h
    rw [Dict.get?_replace_of_ne _ _ h]

theorem AgreeOff.pass {y : Bytes} {frame frame' : Dict Value} (h : AgreeOff y frame frame')
    (var : Bytes) (entry : Key × Value) :
    AgreeOff y (passFrame frame var entry) (passFrame frame' var entry) := by
  intro key hkey
  rw [get?_passFrame, get?_passFrame, h key hkey]

namespace Rebinds

variable {x y : Bytes} {frame frame' : Dict Value}

theorem of_pass (x y : Bytes) (frame : Dict Value) (entry : Key × Value) :
    Rebinds x y (passFrame frame x entry) (passFrame frame y entry) := by
  constructor
  · rw [get?_passFrame, get?_passFrame, if_pos rfl, if_pos rfl]
  · intro key hx hy
    rw [get?_passFrame, get?_passFrame, if_neg hx, if_neg hy]

theorem pass (h : Rebinds x y frame frame') {var : Bytes} (hx : var ≠ x) (hy : var ≠ y)
    (entry : Key × Value) :
    Rebinds x y (passFrame frame var entry) (passFrame frame' var entry) := by
  constructor
  · rw [get?_passFrame, get?_passFrame, if_neg hx.symm, if_neg hy.symm]
    exact h.bound
  · intro key hkx hky
    rw [get?_passFrame, get?_passFrame, h.others key hkx hky]

/-- Where `x` is taken over by an inner loop, only `y` still makes a difference. -/
theorem shadow (h : Rebinds x y frame frame') (entry : Key × Value) :
    AgreeOff y (passFrame frame x entry) (passFrame frame' x entry) := by
  intro key hy
  rw [get?_passFrame, get?_passFrame]
  by_cases hx : key = x
  · rw [if_pos hx, if_pos hx]
  · rw [if_neg hx, if_neg hx, h.others key hx hy]

end Rebinds

/-!
# Resolving a path
-/

theorem resolve_eq_ok_iff (ns frame : Dict Value) (path : Path) (v : Value) :
    resolve ns frame path = .ok v ↔
      lookup frame path = .ok v ∨ (∀ w, lookup frame path ≠ .ok w) ∧
        lookup ns path = .ok v := by
  rw [resolve]
  cases lookup frame path with
  | ok w =>
      simp
  | error e =>
      simp

theorem resolve_eq_ok_congr {ns frame frame' : Dict Value} {path path' : Path}
    (hframe : ∀ v, lookup frame path = .ok v ↔ lookup frame' path' = .ok v)
    (hns : ∀ v, lookup ns path = .ok v ↔ lookup ns path' = .ok v) (v : Value) :
    resolve ns frame path = .ok v ↔ resolve ns frame' path' = .ok v := by
  rw [resolve_eq_ok_iff, resolve_eq_ok_iff]
  simp only [Ne, hframe, hns]

theorem AgreeOff.resolve {y : Bytes} {ns frame frame' : Dict Value}
    (h : AgreeOff y frame frame') {path : Path} (hroot : path.root ≠ y) (v : Value) :
    resolve ns frame path = .ok v ↔ resolve ns frame' path = .ok v := by
  apply resolve_eq_ok_congr
  · exact Path.lookup_eq_ok_congr Iff.rfl rfl (h path.root hroot)
  · exact fun _ => Iff.rfl

/-- A name that paths can begin with, and that the namespace holds nothing under. -/
structure LocalName (ns : Dict Value) (name : Bytes) : Prop where
  isName : Path.IsName name
  missing : ns.get? name = none

theorem Rebinds.resolve {x y : Bytes} {ns frame frame' : Dict Value} (hx : LocalName ns x)
    (hy : LocalName ns y) (h : Rebinds x y frame frame') {path : Path} (hroot : path.root ≠ y)
    (v : Value) :
    Stencil.resolve ns frame path = .ok v ↔
      Stencil.resolve ns frame' (path.rename x y) = .ok v := by
  by_cases hpath : path.root = x
  · rcases Path.root_rename hy.isName.separatorFree hpath with ⟨hrenamed, hbehind⟩
    have hmissing : ns.get? path.root = none := by
      rw [hpath]
      exact hx.missing
    have hmissing' : ns.get? (path.rename x y).root = none := by
      rw [hrenamed]
      exact hy.missing
    apply resolve_eq_ok_congr
    · apply Path.lookup_eq_ok_congr
      · rw [hpath, hrenamed]
        exact iff_of_true hx.isName hy.isName
      · exact hbehind.symm
      · rw [hpath, hrenamed]
        exact h.bound
    · intro w
      apply iff_of_false
      · exact Path.lookup_ne_ok_of_get?_eq_none hmissing w
      · exact Path.lookup_ne_ok_of_get?_eq_none hmissing' w
  · rw [Path.rename, if_neg hpath]
    apply resolve_eq_ok_congr
    · exact Path.lookup_eq_ok_congr Iff.rfl rfl (h.others path.root hpath hroot)
    · exact fun _ => Iff.rfl

/-!
# Rendering with the variable renamed
-/

namespace Script

theorem Alike.iterating {v : Value} {body body' : Key × Value → Script}
    (iterable iterable' : Path) (span : Span) (h : ∀ entry, (body entry).Alike (body' entry)) :
    Alike
      (match v.entries with
        | .ok entries => Script.all (entries.map body)
        | .error _ => Script.stop (.notIterable iterable) span)
      (match v.entries with
        | .ok entries => Script.all (entries.map body')
        | .error _ => Script.stop (.notIterable iterable') span) := by
  cases v.entries with
  | ok entries =>
      exact Alike.all entries fun entry _ => h entry
  | error e =>
      exact Alike.stop _ _ _ _

mutual

theorem alike_ofNode_of_agreeOff [Addressing] {y : Bytes} (ns : Dict Value) :
    ∀ (node : Node) {frame frame' : Dict Value}, node.Avoids y → AgreeOff y frame frame' →
      (ofNode ns node frame).Alike (ofNode ns node frame') := by
  intro node frame frame' havoids hframes
  cases node with
  | text bytes span =>
      exact Alike.refl _
  | subst path span =>
      rw [ofNode, ofNode]
      exact Alike.resolving (hframes.resolve havoids) _ _ fun _ => Alike.refl _
  | cond condition thenBranch elseBranch span =>
      rcases havoids with ⟨hcondition, hthen, helse⟩
      rw [ofNode, ofNode]
      apply Alike.resolving (hframes.resolve hcondition)
      intro v
      split
      · exact alike_ofNodes_of_agreeOff ns thenBranch hthen hframes
      · exact alike_ofNodes_of_agreeOff ns elseBranch helse hframes
  | loop var iterable body span =>
      rcases havoids with ⟨_, hiterable, hbody⟩
      rw [ofNode, ofNode]
      apply Alike.resolving (hframes.resolve hiterable)
      intro v
      apply Alike.iterating
      intro entry
      exact alike_ofNodes_of_agreeOff ns body hbody (hframes.pass var entry)

theorem alike_ofNodes_of_agreeOff [Addressing] {y : Bytes} (ns : Dict Value) :
    ∀ (nodes : List Node) {frame frame' : Dict Value}, Node.AvoidsAll y nodes →
      AgreeOff y frame frame' → (ofNodes ns nodes frame).Alike (ofNodes ns nodes frame') := by
  intro nodes frame frame' havoids hframes
  cases nodes with
  | nil =>
      exact Alike.refl _
  | cons node rest =>
      rw [ofNodes, ofNodes]
      exact (alike_ofNode_of_agreeOff ns node havoids.left hframes).andThen
        (alike_ofNodes_of_agreeOff ns rest havoids.right hframes)

end

mutual

theorem alike_ofNode_rename [Addressing] {x y : Bytes} {ns : Dict Value} (hx : LocalName ns x)
    (hy : LocalName ns y) :
    ∀ (node : Node) {frame frame' : Dict Value}, node.Avoids y → Rebinds x y frame frame' →
      (ofNode ns node frame).Alike (ofNode ns (node.rename x y) frame') := by
  intro node frame frame' havoids hframes
  cases node with
  | text bytes span =>
      exact Alike.refl _
  | subst path span =>
      rw [Node.rename, ofNode, ofNode]
      exact Alike.resolving (hframes.resolve hx hy havoids) _ _ fun _ => Alike.refl _
  | cond condition thenBranch elseBranch span =>
      rcases havoids with ⟨hcondition, hthen, helse⟩
      rw [Node.rename, ofNode, ofNode]
      apply Alike.resolving (hframes.resolve hx hy hcondition)
      intro v
      split
      · exact alike_ofNodes_rename hx hy thenBranch hthen hframes
      · exact alike_ofNodes_rename hx hy elseBranch helse hframes
  | loop var iterable body span =>
      rcases havoids with ⟨hvar, hiterable, hbody⟩
      rw [Node.rename, ofNode, ofNode]
      apply Alike.resolving (hframes.resolve hx hy hiterable)
      intro v
      apply Alike.iterating
      intro entry
      by_cases hshadow : var = x
      · rw [if_pos hshadow, hshadow]
        exact alike_ofNodes_of_agreeOff ns body hbody (hframes.shadow entry)
      · rw [if_neg hshadow]
        exact alike_ofNodes_rename hx hy body hbody (hframes.pass hshadow hvar entry)

theorem alike_ofNodes_rename [Addressing] {x y : Bytes} {ns : Dict Value} (hx : LocalName ns x)
    (hy : LocalName ns y) :
    ∀ (nodes : List Node) {frame frame' : Dict Value}, Node.AvoidsAll y nodes →
      Rebinds x y frame frame' →
      (ofNodes ns nodes frame).Alike (ofNodes ns (Node.renameAll x y nodes) frame') := by
  intro nodes frame frame' havoids hframes
  cases nodes with
  | nil =>
      exact Alike.refl _
  | cons node rest =>
      rw [Node.renameAll, ofNodes, ofNodes]
      exact (alike_ofNode_rename hx hy node havoids.left hframes).andThen
        (alike_ofNodes_rename hx hy rest havoids.right hframes)

end

theorem alike_ofNode_loop_rename [Addressing] {x y : Bytes} {ns : Dict Value}
    (hx : LocalName ns x) (hy : LocalName ns y) {body : List Node}
    (havoids : Node.AvoidsAll y body) (iterable : Path) (span : Span) (frame : Dict Value) :
    (ofNode ns (.loop x iterable body span) frame).Alike
      (ofNode ns (.loop y iterable (Node.renameAll x y body) span) frame) := by
  rw [ofNode, ofNode]
  apply Alike.resolving fun _ => Iff.rfl
  intro v
  apply Alike.iterating
  intro entry
  exact alike_ofNodes_rename hx hy body havoids (Rebinds.of_pass x y frame entry)

theorem alike_ofNodes_of_replaced [Addressing] {ns : Dict Value} {node node' : Node}
    (hnode : ∀ frame, (ofNode ns node frame).Alike (ofNode ns node' frame))
    {list list' : List Node} (h : Node.Replaced node node' list list') (frame : Dict Value) :
    (ofNodes ns list frame).Alike (ofNodes ns list' frame) := by
  induction h generalizing frame with
  | here =>
      rw [ofNodes, ofNodes]
      exact (hnode frame).andThen (Alike.refl _)
  | later _ ih =>
      rw [ofNodes, ofNodes]
      exact (Alike.refl _).andThen (ih frame)
  | thenBranch _ ih =>
      rw [ofNodes, ofNodes, ofNode, ofNode]
      apply Alike.andThen _ (Alike.refl _)
      apply Alike.resolving fun _ => Iff.rfl
      intro v
      split
      · exact ih frame
      · exact Alike.refl _
  | elseBranch _ ih =>
      rw [ofNodes, ofNodes, ofNode, ofNode]
      apply Alike.andThen _ (Alike.refl _)
      apply Alike.resolving fun _ => Iff.rfl
      intro v
      split
      · exact Alike.refl _
      · exact ih frame
  | body _ ih =>
      rw [ofNodes, ofNodes, ofNode, ofNode]
      apply Alike.andThen _ (Alike.refl _)
      apply Alike.resolving fun _ => Iff.rfl
      intro v
      apply Alike.iterating
      intro entry
      exact ih _

end Script

/-!
# The theorem
-/

theorem Directive.isName_of_isVariable {var : Bytes} (h : isVariable var = true)
    (hshort : var.length < Path.nameBound) : Path.IsName var := by
  rw [Path.isName_iff (separatorFree_of_isVariable h), Path.nameFault?_eq_none_iff]
  exact ⟨((isVariable_iff var).mp h).left, hshort⟩

/-- The variable of any loop in a template can be renamed, with the paths of its body that
begin with it, to a name that the template does not use.  Unless the namespace has an
entry of either name, what is rendered stays the same: all sinks are offered the same
chunks, and the rendering succeeds if it did before. -/
theorem loop_variable_renamed_alike [Addressing] {t : Template} {depth : Nat}
    {branch : Node.Branch} {x y : Bytes} {iterable : Path} {body : List Node} {span : Span}
    (hloop : (depth, branch, .loop x iterable body span) ∈ t.outline)
    (hx : Directive.isVariable x = true) (hxshort : x.length < Path.nameBound)
    (hy : Directive.isVariable y = true) (hyshort : y.length < Path.nameBound)
    (hfresh : y ≠ x → Node.AvoidsAll y t.nodes) {ns : Dict Value} (hnsx : ns.get? x = none)
    (hnsy : ns.get? y = none) :
    (∃ nodes', Node.Replaced (.loop x iterable body span)
      (.loop y iterable (Node.renameAll x y body) span) t.nodes nodes') ∧
    ∀ t' : Template, Node.Replaced (.loop x iterable body span)
        (.loop y iterable (Node.renameAll x y body) span) t.nodes t'.nodes →
      (t'.script ns).chunks = (t.script ns).chunks ∧
      ∀ {σ ε : Type} (sink : Sink σ ε) (state : σ),
        (t'.renderTo sink state ns).1 = (t.renderTo sink state ns).1 ∧
        ((t'.renderTo sink state ns).2 = .ok () ↔ (t.renderTo sink state ns).2 = .ok ()) := by
  refine ⟨Node.exists_replaced_of_outlineAll _ _ t.nodes hloop, ?_⟩
  intro t' hreplaced
  have halike : (t'.script ns).Alike (t.script ns) := by
    by_cases hne : y = x
    · rw [hne, Node.renameAll_self] at hreplaced
      rw [Template.script, Template.script, hreplaced.eq_self]
      exact Script.Alike.refl _
    · have hbody := (hreplaced.avoids (hfresh hne)).right.right
      have hlocal : LocalName ns x := ⟨Directive.isName_of_isVariable hx hxshort, hnsx⟩
      have hlocal' : LocalName ns y := ⟨Directive.isName_of_isVariable hy hyshort, hnsy⟩
      have hloopAlike := Script.alike_ofNode_loop_rename hlocal hlocal' hbody iterable span
      exact (Script.alike_ofNodes_of_replaced hloopAlike hreplaced .empty).symm
  refine ⟨halike.chunks, ?_⟩
  intro σ ε sink state
  rw [Template.renderTo_eq_play, Template.renderTo_eq_play]
  exact halike.play sink state

def rebindingBody : List Node :=
  [.loop [0x78] (Bytes.ofText "x.value") [.subst (Bytes.ofText "x.key") ⟨1, 34, 43⟩] ⟨1,
    14, 34⟩, .subst (Bytes.ofText "x.key") ⟨1, 53, 62⟩]

/-- Over `y`, the inner loop still binds `x`. -/
theorem loop_variable_renamed_around_inner_loop :
    Node.renameAll [0x78] [0x79] rebindingBody =
        [.loop [0x78] (Bytes.ofText "y.value") [.subst (Bytes.ofText "x.key") ⟨1, 34, 43⟩]
          ⟨1, 14, 34⟩, .subst (Bytes.ofText "y.key") ⟨1, 53, 62⟩] ∧
      Node.AvoidsAll [0x79] [.loop [0x78] [0x76] rebindingBody ⟨1, 0, 14⟩] ∧
      (Template.script ⟨[.loop [0x79] [0x76] (Node.renameAll [0x78] [0x79] rebindingBody)
          ⟨1, 0, 14⟩]⟩ ⟨[([0x76], .array [.array [.int 5]])]⟩).chunks =
        (Template.script ⟨[.loop [0x78] [0x76] rebindingBody ⟨1, 0, 14⟩]⟩
          ⟨[([0x76], .array [.array [.int 5]])]⟩).chunks := by
  have hloop : (0, .root, .loop [0x78] [0x76] rebindingBody ⟨1, 0, 14⟩) ∈
      Template.outline ⟨[.loop [0x78] [0x76] rebindingBody ⟨1, 0, 14⟩]⟩ := List.mem_cons_self
  have hfresh : Node.AvoidsAll [0x79] [.loop [0x78] [0x76] rebindingBody ⟨1, 0, 14⟩] := by
    simp only [rebindingBody, Node.AvoidsAll, Node.Avoids, and_true]
    decide
  have hmissing : Dict.get? ⟨[([0x76], Value.array [.array [.int 5]])]⟩ [0x78] = none := by
    rfl
  have hmissing' : Dict.get? ⟨[([0x76], Value.array [.array [.int 5]])]⟩ [0x79] = none := by
    rfl
  rcases loop_variable_renamed_alike hloop (by decide) (by decide) (by decide) (by decide)
    (fun _ => hfresh) hmissing hmissing' with ⟨_, hrenamed⟩
  exact ⟨rfl, hfresh, (hrenamed ⟨_⟩ Node.Replaced.here).left⟩

end Stencil
