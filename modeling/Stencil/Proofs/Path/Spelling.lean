import Stencil.Proofs.Path.Extension

/-!
# Spellings of one place

A look-up reads its path into steps and follows them.  What it finds depends on
nothing but the steps, so that all spellings of an index, with more or fewer zeros in
front, lead to the same place.
-/

namespace Stencil

/-!
# Steps only
-/

namespace Path

theorem find_congr (path path' : Path) (label : Bytes) (v : Value)
    {segments segments' : List Segment}
    (h : segments.map Segment.step = segments'.map Segment.step) :
    (find path label v segments .complete).mapError PathError.fault =
      (find path' label v segments' .complete).mapError PathError.fault := by
  induction segments generalizing label v segments' with
  | nil =>
      have hnil : segments' = [] := List.map_eq_nil_iff.mp h.symm
      rw [hnil]
      rfl
  | cons segment rest ih =>
      rcases List.map_eq_cons_iff.mp h.symm with ⟨segment', rest', rfl, hstep, hrest⟩
      cases segment with
      | name start name =>
          cases segment' with
          | index start' stop' i' =>
              cases hstep
          | name start' name' =>
              cases hstep
              cases v with
              | dict d =>
                  rw [find, find]
                  cases d.get? name with
                  | none =>
                      rfl
                  | some w =>
                      exact ih name w hrest.symm
              | _ =>
                  rfl
      | index start stop i =>
          cases segment' with
          | name start' name' =>
              cases hstep
          | index start' stop' i' =>
              cases hstep
              cases v with
              | array items =>
                  rw [find, find]
                  cases items[i]? with
                  | none =>
                      rfl
                  | some w =>
                      exact ih label w hrest.symm
              | _ =>
                  rfl

theorem Spells.lookup_congr {path path' : Path} {steps : List Step} (h : Spells path steps)
    (h' : Spells path' steps) (ns : Dict Value) :
    (lookup ns path).mapError PathError.fault =
      (lookup ns path').mapError PathError.fault := by
  rcases (spells_iff_read path steps).mp h with ⟨hending, hsteps⟩
  rcases (spells_iff_read path' steps).mp h' with ⟨hending', hsteps'⟩
  rw [lookup, lookup, hending, hending']
  exact find_congr path path' [] (.dict ns) (hsteps.trans hsteps'.symm)

/-!
# Index tokens
-/

theorem exists_append_of_notMem {b : UInt8} {front rest before behind : Bytes} (hb : b ∉ front)
    (h : front ++ rest = before ++ b :: behind) :
    ∃ more, before = front ++ more ∧ rest = more ++ b :: behind := by
  rcases List.append_eq_append_iff.mp h with ⟨more, hbefore, hrest⟩ | ⟨more, hfront, hrest⟩
  · exact ⟨more, hbefore, hrest⟩
  · cases more with
    | nil =>
        rw [List.append_nil] at hfront
        exact ⟨[], by rw [hfront, List.append_nil], hrest.symm⟩
    | cons c more =>
        rw [List.cons_append, List.cons.injEq] at hrest
        rw [hfront, ← hrest.left] at hb
        exact absurd (List.mem_append_right before List.mem_cons_self) hb

theorem append_cons_inj {b : UInt8} {front front' rest rest' : Bytes} (hb : b ∉ front)
    (hb' : b ∉ front') (h : front ++ b :: rest = front' ++ b :: rest') :
    front = front' ∧ rest = rest' := by
  rcases exists_append_of_notMem hb h with ⟨more, rfl, hmore⟩
  cases more with
  | nil =>
      rw [List.nil_append, List.cons.injEq] at hmore
      exact ⟨(List.append_nil front).symm, hmore.right⟩
  | cons c more =>
      rw [List.cons_append, List.cons.injEq] at hmore
      rw [← hmore.left] at hb'
      exact absurd (List.mem_append_right front List.mem_cons_self) hb'

theorem IsIndexToken.openBracket_notMem {token : Bytes} (h : IsIndexToken token) :
    Byte.openBracket ∉ token ++ [Byte.closeBracket] := by
  intro hmem
  rcases List.mem_append.mp hmem with htoken | hclose
  · have hdigit := h.digits _ htoken
    revert hdigit
    decide
  · cases hclose with
    | tail _ hnil =>
        cases hnil

theorem Continues.exists_before_bracket {whole : Bytes} {steps : List Step}
    (h : Continues whole steps) {before behind : Bytes}
    (hsplit : whole = before ++ Byte.openBracket :: behind) :
    ∃ others, Continues before others := by
  induction h generalizing before with
  | done =>
      cases before <;> cases hsplit
  | @name name rest steps hname hrest ih =>
      cases before with
      | nil =>
          cases hsplit
      | cons b before =>
          rw [List.cons_append, List.cons.injEq] at hsplit
          rcases hsplit with ⟨rfl, hsplit⟩
          rcases exists_append_of_notMem hname.no_bracket hsplit with ⟨more, rfl, hmore⟩
          rcases ih hmore with ⟨others, hothers⟩
          exact ⟨_, Continues.name hname hothers⟩
  | @index token rest steps htoken hrest ih =>
      cases before with
      | nil =>
          exact ⟨[], Continues.done⟩
      | cons b before =>
          rw [List.cons_append, List.cons.injEq] at hsplit
          rcases hsplit with ⟨rfl, hsplit⟩
          rw [List.append_cons] at hsplit
          rcases exists_append_of_notMem htoken.openBracket_notMem hsplit with
            ⟨more, rfl, hmore⟩
          rcases ih hmore with ⟨others, hothers⟩
          rw [List.append_assoc, List.singleton_append]
          exact ⟨_, Continues.index htoken hothers⟩

theorem Spells.exists_before_bracket {before behind : Bytes} {steps : List Step}
    (h : Spells (before ++ Byte.openBracket :: behind) steps) :
    ∃ others, Spells before others := by
  generalize hsplit : before ++ Byte.openBracket :: behind = whole at h
  cases h with
  | start hname hrest =>
      rcases exists_append_of_notMem hname.no_bracket hsplit.symm with ⟨more, rfl, hmore⟩
      rcases hrest.exists_before_bracket hmore with ⟨others, hothers⟩
      exact ⟨_, Spells.start hname hothers⟩

theorem continues_bracket_iff {token : Bytes} (h : IsIndexToken token) (rest : Bytes)
    (steps : List Step) :
    Continues (Byte.openBracket :: (token ++ Byte.closeBracket :: rest)) steps ↔
      ∃ others, Continues rest others ∧
        steps = .index (Bytes.digitsValue token) :: others := by
  constructor
  · intro hcontinues
    generalize hsplit : Byte.openBracket :: (token ++ Byte.closeBracket :: rest) = whole
      at hcontinues
    cases hcontinues with
    | done =>
        cases hsplit
    | name hname hrest =>
        cases hsplit
    | @index token' rest' steps' htoken' hrest' =>
        rw [List.cons.injEq] at hsplit
        rcases append_cons_inj h.closeBracket_notMem htoken'.closeBracket_notMem
          hsplit.right with
          ⟨rfl, rfl⟩
        exact ⟨steps', hrest', rfl⟩
  · intro hothers
    rcases hothers with ⟨others, hothers, rfl⟩
    exact Continues.index h hothers

theorem Spells.replace_token {before token token' rest : Bytes} {steps : List Step}
    (htoken : IsIndexToken token) (htoken' : IsIndexToken token')
    (hvalue : Bytes.digitsValue token = Bytes.digitsValue token')
    (h : Spells (before ++ Byte.openBracket :: (token ++ Byte.closeBracket :: rest)) steps) :
    Spells (before ++ Byte.openBracket :: (token' ++ Byte.closeBracket :: rest)) steps := by
  rcases h.exists_before_bracket with ⟨front, hfront⟩
  rcases (hfront.append_iff (atSeparator_openBracket _) steps).mp h with
    ⟨others, hothers, hsteps⟩
  apply (hfront.append_iff (atSeparator_openBracket _) steps).mpr
  refine ⟨others, ?_, hsteps⟩
  rw [continues_bracket_iff htoken, hvalue] at hothers
  rw [continues_bracket_iff htoken']
  exact hothers

/-!
# Leading zeros
-/

theorem digitsValue_replicate_zero (zeros : Nat) (token : Bytes) :
    Bytes.digitsValue (List.replicate zeros Byte.zero ++ token) = Bytes.digitsValue token := by
  induction zeros with
  | zero =>
      rfl
  | succ zeros ih =>
      rw [← ih]
      rfl

theorem IsIndexToken.pad {token : Bytes} (h : IsIndexToken token) {zeros : Nat}
    (hshort : zeros + token.length < indexTokenBound) :
    IsIndexToken (List.replicate zeros Byte.zero ++ token) := by
  constructor
  · intro hnil
    exact h.nonempty (List.append_eq_nil_iff.mp hnil).right
  · rw [List.length_append, List.length_replicate]
    exact hshort
  · intro b hb
    rcases List.mem_append.mp hb with hzero | htoken
    · rw [List.eq_of_mem_replicate hzero]
      rfl
    · exact h.digits b htoken
  · rw [digitsValue_replicate_zero]
    exact h.bounded

end Path

/-!
# The theorem
-/

/-- A look-up finds a value exactly when its path is in the grammar and the steps that it
spells lead to that value.  So paths that spell the same steps find the same or fail for
the same reason, zeros in front of an index do not matter while its token stays within the
bound, and behind a path to a dictionary any path is looked up in that dictionary. -/
theorem lookup_follows_spelled_steps (ns : Dict Value) (path : Path) (v : Value) :
    (lookup ns path = .ok v ↔
      ∃ steps, Path.Spells path steps ∧ (Value.dict ns).follow? steps = some v) ∧
    (∀ steps other, Path.Spells path steps → Path.Spells other steps →
      (lookup ns path).mapError PathError.fault = (lookup ns other).mapError PathError.fault) ∧
    (∀ before token rest zeros,
      path = before ++ Byte.openBracket :: (token ++ Byte.closeBracket :: rest) →
      Path.IsIndexToken token → zeros + token.length < Path.indexTokenBound →
      (lookup ns path = .ok v ↔
        lookup ns (before ++ Byte.openBracket ::
          (List.replicate zeros Byte.zero ++ token ++ Byte.closeBracket :: rest)) = .ok v)) ∧
    ∀ d other, lookup ns path = .ok (.dict d) →
      (lookup ns (path ++ Byte.dot :: other) = .ok v ↔ lookup d other = .ok v) := by
  refine ⟨lookup_eq_ok_iff ns path v, ?_, ?_, ?_⟩
  · intro steps other hpath hother
    exact hpath.lookup_congr hother ns
  · intro before token rest zeros hpath htoken hshort
    have hpadded := htoken.pad hshort
    have hvalue := Path.digitsValue_replicate_zero zeros token
    rw [hpath, lookup_eq_ok_iff, lookup_eq_ok_iff]
    constructor
    · intro h
      rcases h with ⟨steps, hspells, hfollow⟩
      exact ⟨steps, hspells.replace_token htoken hpadded hvalue.symm, hfollow⟩
    · intro h
      rcases h with ⟨steps, hspells, hfollow⟩
      exact ⟨steps, hspells.replace_token hpadded htoken hvalue, hfollow⟩
  · intro d other h
    exact lookup_append_dot h other v

/-- The index of `a[1].b` is spelled with two more zeros. -/
theorem lookup_padded_index :
    Path.IsIndexToken [0x31] ∧
      lookup ⟨[(Bytes.ofText "a", .array [.none, .dict ⟨[(Bytes.ofText "b", .int 7)]⟩])]⟩
        (Bytes.ofText "a[001].b") = .ok (.int 7) := by
  have htoken : Path.IsIndexToken [0x31] := by
    constructor
    · decide
    · decide
    · exact List.forall_mem_singleton.mpr rfl
    · decide
  rcases lookup_follows_spelled_steps
      ⟨[(Bytes.ofText "a", .array [.none, .dict ⟨[(Bytes.ofText "b", .int 7)]⟩])]⟩
      (Bytes.ofText "a[1].b") (.int 7) with ⟨_, _, hzeros, _⟩
  have hpadded := hzeros (Bytes.ofText "a") [0x31] (Bytes.ofText ".b") 2 rfl htoken (by decide)
  exact ⟨htoken, hpadded.mp rfl⟩

end Stencil
