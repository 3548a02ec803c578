import Stencil.Proofs.Template.Displacement

/-!
# Sources put together

Two sources are cut together as each is cut by itself, except where they meet: the text
that the first ends with and the text that the second begins with are one, unless a brace
of each makes a pair.
-/

namespace Stencil

namespace Bytes

theorem endsIn_iff (b : UInt8) (bytes : Bytes) :
    endsIn b bytes = true ↔ bytes.getLast? = some b := by
  rw [endsIn, beq_iff_eq]

theorem endsIn_append {b : UInt8} {back : Bytes} (h : endsIn b back = true) (front : Bytes) :
    endsIn b (front ++ back) = true := by
  rw [endsIn_iff] at h ⊢
  rw [List.getLast?_append, h, Option.some_or]

theorem NoPair.append {b : UInt8} {front back : Bytes} (hfront : NoPair b front)
    (hback : NoPair b back) (hseam : ¬ (endsIn b front = true ∧ back.head? = some b)) :
    NoPair b (front ++ back) := by
  intro hinfix
  rcases List.infix_append_iff.mp hinfix with
    hinfix | hinfix | ⟨left, right, hpair, hleft, hright⟩
  · exact hfront hinfix
  · exact hback hinfix
  · cases left with
    | nil =>
        rw [List.nil_append] at hpair
        rw [← hpair] at hright
        exact hback hright.isInfix
    | cons c left =>
        rw [List.cons_append, List.cons.injEq] at hpair
        rcases hpair with ⟨rfl, hpair⟩
        cases left with
        | nil =>
            rw [List.nil_append] at hpair
            rw [← hpair] at hright
            apply hseam
            constructor
            · rcases hleft with ⟨before, rfl⟩
              rw [endsIn_concat, beq_self_eq_true]
            · rcases hright with ⟨behind, rfl⟩
              rfl
        | cons d left =>
            rw [List.cons_append, List.cons.injEq, eq_comm (a := []),
              List.append_eq_nil_iff] at hpair
            rcases hpair with ⟨rfl, rfl, _⟩
            exact hfront hleft.isInfix

end Bytes

namespace Fragment

/-!
# Where two sources meet
-/

theorem Cuts.exists_first {bytes : Bytes} {fragments : List Fragment}
    (h : Cuts bytes fragments) :
    ∃ first more, fragments = ofText first ++ more ∧
      ∀ text, Bytes.NoPair Byte.openBrace text →
        ¬ (Bytes.endsIn Byte.openBrace text = true ∧ bytes.head? = some Byte.openBrace) →
        Cuts (text ++ bytes) (ofText (text ++ first) ++ more) := by
  cases h with
  | text hfirst =>
      refine ⟨bytes, [], (List.append_nil _).symm, ?_⟩
      intro text htext hseam
      rw [List.append_nil]
      exact Cuts.text (htext.append hfirst hseam)
  | @directive first content rest fragments hfirst hcontent hne hline hrest =>
      refine ⟨first, _, rfl, ?_⟩
      intro text htext hseam
      have hhead : (first ++ [Byte.openBrace]).head? =
          (first ++ ((Fragment.directive content).source ++ rest)).head? := by
        cases first with
        | nil =>
            rfl
        | cons b first =>
            rfl
      rw [← hhead] at hseam
      have hopen := htext.append hfirst hseam
      rw [← List.append_assoc] at hopen ⊢
      exact Cuts.directive hopen hcontent hne hline hrest

theorem Cuts.exists_last {bytes : Bytes} {fragments : List Fragment}
    (h : Cuts bytes fragments) :
    ∃ init last, fragments = init ++ ofText last ∧ bytes = init.flatMap source ++ last ∧
      Bytes.NoPair Byte.openBrace last ∧
      ∀ behind more, Cuts (last ++ behind) more → Cuts (bytes ++ behind) (init ++ more) := by
  induction h with
  | @text last hlast =>
      exact ⟨[], last, rfl, rfl, hlast, fun _ _ hmore => hmore⟩
  | @directive text content rest fragments htext hcontent hne hline _ ih =>
      rcases ih with ⟨init, last, rfl, rfl, hlast, hmore⟩
      refine ⟨ofText text ++ .directive content :: init, last, ?_, ?_, hlast, ?_⟩
      · simp
      · simp
      · intro behind more hbehind
        have hcuts := Cuts.directive htext hcontent hne hline (hmore behind more hbehind)
        simpa using hcuts

/-- Two sources that make no pair of braces where they meet are cut together as each by
itself, except that their texts there are one. -/
theorem Cuts.append {front back : Bytes} {fragments others : List Fragment}
    (hfront : Cuts front fragments) (hback : Cuts back others)
    (hseam : ¬ (Bytes.endsIn Byte.openBrace front = true ∧ back.head? = some Byte.openBrace)) :
    ∃ init last first more, fragments = init ++ ofText last ∧ others = ofText first ++ more ∧
      Cuts (front ++ back) (init ++ (ofText (last ++ first) ++ more)) := by
  rcases hfront.exists_last with ⟨init, last, hfragments, hbytes, hlast, hbehind⟩
  rcases hback.exists_first with ⟨first, more, hothers, hbefore⟩
  refine ⟨init, last, first, more, hfragments, hothers, ?_⟩
  apply hbehind
  apply hbefore last hlast
  rintro ⟨hend, hhead⟩
  rw [hbytes] at hseam
  exact hseam ⟨Bytes.endsIn_append hend _, hhead⟩

end Fragment

/-!
# The compiled template
-/

def Node.ofText (bytes : Bytes) (span : Span) : List Node :=
  if bytes.isEmpty then [] else [.text bytes span]

namespace Builder

theorem exists_foldlM_ofText (text : Bytes) (offset line : Nat) (b : Builder) :
    ∃ span, (Fragment.place offset line (Fragment.ofText text)).foldlM piece b =
      .ok (b.addAll (Node.ofText text span)) := by
  refine ⟨⟨line, offset, offset + text.length⟩, ?_⟩
  cases text with
  | nil =>
      exact congrArg Except.ok b.addAll_nil.symm
  | cons c text =>
      exact congrArg Except.ok (b.addAll_singleton _).symm

theorem foldlM_ofText_last {init : List Fragment} {text : Bytes} {offset line : Nat}
    {b b' : Builder}
    (h : (Fragment.place offset line (init ++ Fragment.ofText text)).foldlM piece b = .ok b') :
    ∃ mid span, (Fragment.place offset line init).foldlM piece b = .ok mid ∧
      b' = mid.addAll (Node.ofText text span) := by
  rw [Fragment.place_append] at h
  rcases (foldlM_append_eq_ok_iff _ _ _ _).mp h with ⟨mid, hinit, hlast⟩
  rcases exists_foldlM_ofText text (offset + (init.flatMap Fragment.source).length)
    (line + Bytes.countNewlines (init.flatMap Fragment.source)) mid with ⟨span, hnode⟩
  rw [hnode] at hlast
  cases hlast
  exact ⟨mid, span, hinit, rfl⟩

theorem foldlM_ofText_first {more : List Fragment} {text : Bytes} {offset line : Nat}
    {b b' : Builder}
    (h : (Fragment.place offset line (Fragment.ofText text ++ more)).foldlM piece b = .ok b') :
    ∃ span, (Fragment.place (offset + text.length) (line +
      Bytes.countNewlines text) more).foldlM
      piece (b.addAll (Node.ofText text span)) = .ok b' := by
  rw [Fragment.place_append, Fragment.flatMap_source_ofText] at h
  rcases (foldlM_append_eq_ok_iff _ _ _ _).mp h with ⟨mid, hfirst, hmore⟩
  rcases exists_foldlM_ofText text offset line b with ⟨span, hnode⟩
  rw [hnode] at hfirst
  cases hfirst
  exact ⟨span, hmore⟩

theorem stack_eq_nil_of_addAll {b : Builder} {nodes : List Node}
    (h : (b.addAll nodes).stack = []) :
    b.stack = [] := by
  rcases b with ⟨root, _ | ⟨block, stack⟩⟩
  · rfl
  · cases h

theorem addAll_of_stack_eq_nil {b : Builder} (h : b.stack = []) (nodes : List Node) :
    b.addAll nodes = ⟨b.root.append nodes, []⟩ := by
  rcases b with ⟨root, _ | ⟨block, stack⟩⟩
  · rfl
  · cases h

end Builder

theorem compile_append {front back : Bytes} {t u : Template}
    (ht : Template.compile front = .ok t) (hu : Template.compile back = .ok u)
    (hseam : ¬ (front.getLast? = some Byte.openBrace ∧ back.head? = some Byte.openBrace)) :
    ∃ init last first more lastSpan firstSpan span,
      t.nodes = init ++ Node.ofText last lastSpan ∧
        u.nodes = Node.ofText first firstSpan ++ more ∧
      Template.compile (front ++ back) =
        .ok ⟨init ++ (Node.ofText (last ++ first) span ++ more.map (Node.behind front))⟩ := by
  rcases (compile_eq_ok_iff front t).mp ht with ⟨fragments, b, hfront, hfold, hstack, rfl⟩
  rcases (compile_eq_ok_iff back u).mp hu with ⟨others, b', hback, hfold', hstack', rfl⟩
  rw [← Bytes.endsIn_iff] at hseam
  rcases hfront.append hback hseam with ⟨init, last, first, more, rfl, rfl, hcuts⟩
  have hsource : front = init.flatMap Fragment.source ++ last := by
    rw [← hfront.flatMap_source, List.flatMap_append, Fragment.flatMap_source_ofText]
  -- In front of its last text the first source leaves no block open.
  rcases Builder.foldlM_ofText_last hfold with ⟨mid, lastSpan, hinit, rfl⟩
  have hmid := Builder.stack_eq_nil_of_addAll hstack
  rw [Builder.addAll_of_stack_eq_nil hmid, Log.toList_append]
  -- What the second source has behind its first text is read behind
  -- the joined text as well.
  rcases Builder.foldlM_ofText_first hfold' with ⟨firstSpan, hmore⟩
  rcases Builder.exists_foldlM_ofText (last ++ first) (0 +
    (init.flatMap Fragment.source).length)
    (1 + Bytes.countNewlines (init.flatMap Fragment.source)) mid with ⟨span, hjoined⟩
  have hstart := Builder.Behind.of_addAll front hmid (Node.ofText first firstSpan)
    (Node.ofText (last ++ first) span)
  rcases hstart.foldlM hmore with ⟨whole, hwhole, ⟨nodes, hnodes, hroot⟩, hblocks⟩
  refine ⟨mid.root.toList, last, first, nodes, lastSpan, firstSpan, span, rfl, hnodes, ?_⟩
  rw [compile_eq_ok_iff]
  refine ⟨_, whole, hcuts, ?_, ?_, ?_⟩
  · have hoffset : 0 + (init.flatMap Fragment.source).length + (last ++ first).length =
        front.length + (0 + first.length) := by
      rw [hsource]
      simp [Nat.add_assoc]
    have hline : 1 + Bytes.countNewlines (init.flatMap Fragment.source) +
        Bytes.countNewlines (last ++ first) =
          Bytes.countNewlines front + (1 + Bytes.countNewlines first) := by
      rw [hsource, Bytes.countNewlines_append, Bytes.countNewlines_append]
      omega
    rw [Fragment.place_append, foldlM_append_of_ok hinit, Fragment.place_append,
      foldlM_append_of_ok hjoined, Fragment.flatMap_source_ofText, hoffset, hline,
      Fragment.place_behind]
    exact hwhole
  · rw [hblocks, hstack', List.map_nil]
  · rw [hroot, List.append_assoc]

end Stencil
