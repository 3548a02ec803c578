import Stencil.Proofs.Path.Root

/-!
# Where segments stand

A path is read segment by segment.  This module says what is read of a text before which a
separator is due, with the offsets that go with it, so that each segment and each fault
can be found again in the path.
-/

namespace Stencil
namespace Path

/-!
# Index tokens
-/

def indexToken (bytes : Bytes) : Bytes :=
  bytes.takeWhile (· != Byte.closeBracket)

/-- What is wrong with the index that a text begins with, and how many bytes on it is
noticed: a token of the wrong length at once, a missing bracket at the end of the text,
and a token that denotes no index of an array behind its bracket. -/
inductive BadIndex (bytes : Bytes) : Nat → PathFault → Prop where
  | tooLong :
      indexTokenBound ≤ (indexToken bytes).length → BadIndex bytes 0 .indexTooLong
  | empty :
      indexToken bytes = [] → BadIndex bytes 0 .indexEmpty
  | notTerminated :
      bytes ≠ [] → bytes.length < indexTokenBound → Byte.closeBracket ∉ bytes →
      BadIndex bytes bytes.length .indexNotTerminated
  | notANumber {b : UInt8} :
      (indexToken bytes).length < indexTokenBound → Byte.closeBracket ∈ bytes →
      b ∈ indexToken bytes → Byte.isDigit b = false →
      BadIndex bytes ((indexToken bytes).length + 1) .indexNotANumber
  | outOfBounds :
      indexToken bytes ≠ [] → (indexToken bytes).length < indexTokenBound →
      Byte.closeBracket ∈ bytes → (∀ b ∈ indexToken bytes, Byte.isDigit b = true) →
      maxArrayLength ≤ Bytes.digitsValue (indexToken bytes) →
      BadIndex bytes ((indexToken bytes).length + 1) .indexOutOfBounds

theorem indexToken_append {token : Bytes} (hopen : Byte.closeBracket ∉ token) (rest : Bytes) :
    indexToken (token ++ rest) = token ++ indexToken rest := by
  apply List.takeWhile_append_of_pos
  intro b hb
  exact bne_iff_ne.mpr fun heq => hopen (heq ▸ hb)

theorem indexToken_closed {token : Bytes} (hopen : Byte.closeBracket ∉ token) (rest : Bytes) :
    indexToken (token ++ Byte.closeBracket :: rest) = token := by
  rw [indexToken_append hopen, indexToken, List.takeWhile_cons_of_neg (by simp),
    List.append_nil]

theorem indexToken_open {bytes : Bytes} (hopen : Byte.closeBracket ∉ bytes) :
    indexToken bytes = bytes := by
  have h := indexToken_append hopen []
  rw [List.append_nil] at h
  exact h.trans (List.append_nil bytes)

theorem badIndex_of_tokenFault? {bytes : Bytes} {fault : PathFault}
    (h : tokenFault? (indexToken bytes) = some fault) : BadIndex bytes 0 fault := by
  unfold tokenFault? at h
  split at h
  · rename_i hlong
    cases h
    exact BadIndex.tooLong hlong
  · split at h
    · rename_i hempty
      cases h
      exact BadIndex.empty (List.isEmpty_iff.mp hempty)
    · cases h

theorem badIndex_of_tokenIndex {bytes : Bytes} {fault : PathFault}
    (hclosed : Byte.closeBracket ∈ bytes) (hfault : tokenFault? (indexToken bytes) = none)
    (h : tokenIndex (indexToken bytes) = .error fault) :
    BadIndex bytes ((indexToken bytes).length + 1) fault := by
  rcases (tokenFault?_eq_none_iff _).mp hfault with ⟨hne, hshort⟩
  unfold tokenIndex at h
  by_cases hdigits : (indexToken bytes).all Byte.isDigit = true
  · rw [hdigits, Bool.not_true, if_neg Bool.false_ne_true] at h
    split at h
    · cases h
    · rename_i hbound
      cases h
      exact BadIndex.outOfBounds hne hshort hclosed (List.all_eq_true.mp hdigits)
        (Nat.le_of_not_lt hbound)
  · rw [Bool.not_eq_true] at hdigits
    rw [hdigits, Bool.not_false, if_pos rfl] at h
    cases h
    rcases List.all_eq_false.mp hdigits with ⟨b, hb, hdigit⟩
    exact BadIndex.notANumber hshort hclosed hb (Bool.not_eq_true _ ▸ hdigit)

/-!
# Reading one segment
-/

theorem readFrom_name_cases (start : Nat) (bytes : Bytes) :
    (∃ fault, nameFault? (root bytes) = some fault ∧
      readFrom (.name start bytes) start bytes = .endingIn (.badName start fault)) ∨
    ∃ name rest, bytes = name ++ rest ∧ IsName name ∧ AtSeparator rest ∧
      readFrom (.name start bytes) start bytes =
        (readFrom .separator (start + name.length) rest).prepend (.name start name) := by
  rcases exists_name_split bytes with ⟨name, rest, rfl, hfree, hrest⟩
  rw [readFrom_name hfree hrest, (hfree.root_append hrest).left]
  cases hfault : nameFault? name with
  | some fault =>
      left
      exact ⟨fault, rfl, by simp [closeName, hfault]⟩
  | none =>
      right
      have hname := (isName_iff hfree).mpr hfault
      exact ⟨name, rest, rfl, hname, hrest, closeName_of_isName hname start _⟩

theorem readFrom_index_cases (start : Nat) (bytes : Bytes) :
    (∃ n fault, BadIndex bytes n fault ∧
      readFrom (.index start bytes) start bytes =
        .endingIn (.badIndex start (start + n) fault)) ∨
    ∃ token rest, bytes = token ++ Byte.closeBracket :: rest ∧ IsIndexToken token ∧
      readFrom (.index start bytes) start bytes =
        (readFrom .separator (start + token.length + 1) rest).prepend
          (.index start (start + token.length + 1) (Bytes.digitsValue token)) := by
  by_cases hclosed : Byte.closeBracket ∈ bytes
  · rcases List.eq_append_cons_of_mem hclosed with ⟨token, rest, rfl, hopen⟩
    have htoken := indexToken_closed hopen rest
    rw [readFrom_index hopen]
    cases hfault : tokenFault? token with
    | some fault =>
        left
        refine ⟨0, fault, badIndex_of_tokenFault? (htoken.symm ▸ hfault), ?_⟩
        simp [closeIndex, hfault]
    | none =>
        cases hindex : tokenIndex token with
        | error fault =>
            left
            have hbad : BadIndex _ _ fault :=
              badIndex_of_tokenIndex hclosed (htoken.symm ▸ hfault) (htoken.symm ▸ hindex)
            rw [htoken] at hbad
            refine ⟨_, fault, hbad, ?_⟩
            simp [closeIndex, hfault, hindex, Nat.add_assoc]
        | ok i =>
            right
            have hi := ((tokenIndex_eq_ok_iff token i).mp hindex).right.right
            have hgood := (isIndexToken_iff token).mpr ⟨hfault, hi.symm ▸ hindex⟩
            exact ⟨token, rest, rfl, hgood, closeIndex_of_isIndexToken hgood start _⟩
  · left
    have htoken := indexToken_open hclosed
    rw [readFrom_index_unclosed hclosed, openIndex]
    cases hfault : tokenFault? bytes with
    | some fault =>
        exact ⟨0, fault, badIndex_of_tokenFault? (htoken.symm ▸ hfault), rfl⟩
    | none =>
        rcases (tokenFault?_eq_none_iff bytes).mp hfault with ⟨hne, hshort⟩
        exact ⟨bytes.length, _, BadIndex.notTerminated hne hshort hclosed, rfl⟩

/-!
# Reading on
-/

inductive ReadsOn : Nat → Bytes → List Segment → Ending → Prop where
  | complete {offset : Nat} : ReadsOn offset [] [] .complete
  | stray {offset : Nat} {b : UInt8} {rest : Bytes} :
      b ≠ Byte.dot → b ≠ Byte.openBracket →
      ReadsOn offset (b :: rest) [] (.stray (offset + 1))
  | badName {offset : Nat} {rest : Bytes} {fault : PathFault} :
      nameFault? (root rest) = some fault →
      ReadsOn offset (Byte.dot :: rest) [] (.badName (offset + 1) fault)
  | name {offset : Nat} {name rest : Bytes} {segments : List Segment} {ending : Ending} :
      IsName name → AtSeparator rest →
      ReadsOn (offset + 1 + name.length) rest segments ending →
      ReadsOn offset (Byte.dot :: (name ++ rest)) (.name (offset + 1) name :: segments) ending
  | badIndex {offset n : Nat} {rest : Bytes} {fault : PathFault} :
      BadIndex rest n fault →
      ReadsOn offset (Byte.openBracket :: rest) []
        (.badIndex (offset + 1) (offset + 1 + n) fault)
  | index {offset : Nat} {token rest : Bytes} {segments : List Segment} {ending : Ending} :
      IsIndexToken token → ReadsOn (offset + 1 + token.length + 1) rest segments ending →
      ReadsOn offset (Byte.openBracket :: (token ++ Byte.closeBracket :: rest))
        (.index (offset + 1) (offset + 1 + token.length + 1) (Bytes.digitsValue token) ::
          segments)
        ending

inductive Reads : Path → List Segment → Ending → Prop where
  | badName {path : Path} {fault : PathFault} :
      nameFault? (root path) = some fault → Reads path [] (.badName 0 fault)
  | name {name rest : Bytes} {segments : List Segment} {ending : Ending} :
      IsName name → AtSeparator rest → ReadsOn name.length rest segments ending →
      Reads (name ++ rest) (.name 0 name :: segments) ending

theorem readsOn_readFrom (offset : Nat) (bytes : Bytes) :
    ReadsOn offset bytes (readFrom .separator offset bytes).segments
      (readFrom .separator offset bytes).ending := by
  match bytes with
  | [] =>
      exact ReadsOn.complete
  | b :: rest =>
      rw [readFrom]
      by_cases hdot : b = Byte.dot
      · rw [if_pos hdot, hdot]
        rcases readFrom_name_cases (offset + 1) rest with
          ⟨fault, hfault, hread⟩ | ⟨name, more, hsplit, hname, hmore, hread⟩
        · rw [hread]
          exact ReadsOn.badName hfault
        · rw [hread, hsplit]
          exact ReadsOn.name hname hmore (readsOn_readFrom _ more)
      · rw [if_neg hdot]
        by_cases hbracket : b = Byte.openBracket
        · rw [if_pos hbracket, hbracket]
          rcases readFrom_index_cases (offset + 1) rest with
            ⟨n, fault, hbad, hread⟩ | ⟨token, more, hsplit, htoken, hread⟩
          · rw [hread]
            exact ReadsOn.badIndex hbad
          · rw [hread, hsplit]
            exact ReadsOn.index htoken (readsOn_readFrom _ more)
        · rw [if_neg hbracket]
          exact ReadsOn.stray hdot hbracket
termination_by bytes.length
decreasing_by
  all_goals
    subst hsplit
    simp only [List.length_cons, List.length_append]
    omega

theorem reads_read {path : Path} (h : path ≠ []) :
    Reads path path.read.segments path.read.ending := by
  rw [read, if_neg (by simpa using h)]
  rcases readFrom_name_cases 0 path with
    ⟨fault, hfault, hread⟩ | ⟨name, rest, rfl, hname, hrest, hread⟩
  · rw [hread]
    exact Reads.badName hfault
  · rw [hread, Nat.zero_add]
    exact Reads.name hname hrest (readsOn_readFrom _ rest)

/-!
# Finding segments again
-/

theorem ReadsOn.exists_token {offset : Nat} {bytes : Bytes} {segments : List Segment}
    {ending : Ending} (h : ReadsOn offset bytes segments ending) {start stop i : Nat}
    (hmem : .index start stop i ∈ segments) :
    ∃ front token rest,
      bytes = front ++ Byte.openBracket :: (token ++ Byte.closeBracket :: rest) ∧
        IsIndexToken token ∧ stop = offset + front.length + 1 + token.length + 1 := by
  induction h with
  | @name offset name _ _ _ _ _ _ ih =>
      rcases List.mem_cons.mp hmem with hfirst | hmem
      · cases hfirst
      · rcases ih hmem with ⟨front, token, rest, rfl, htoken, hstop⟩
        refine ⟨Byte.dot :: (name ++ front), token, rest, ?_, htoken, ?_⟩
        · rw [List.cons_append, List.append_assoc]
        · rw [hstop, List.length_cons, List.length_append]
          omega
  | @index offset token rest _ _ htoken _ ih =>
      rcases List.mem_cons.mp hmem with hfirst | hmem
      · cases hfirst
        exact ⟨[], token, rest, rfl, htoken, rfl⟩
      · rcases ih hmem with ⟨front, other, more, rfl, hother, hstop⟩
        refine ⟨Byte.openBracket :: (token ++ Byte.closeBracket :: front), other,
          more, ?_, hother, ?_⟩
        · rw [List.cons_append, List.append_assoc, List.cons_append]
        · rw [hstop, List.length_cons, List.length_append, List.length_cons]
          omega
  | _ =>
      cases hmem

theorem ReadsOn.exists_badIndex {offset : Nat} {bytes : Bytes} {segments : List Segment}
    {ending : Ending} (h : ReadsOn offset bytes segments ending) {start stop : Nat}
    {fault : PathFault} (hending : ending = .badIndex start stop fault) :
    ∃ front rest n, bytes = front ++ Byte.openBracket :: rest ∧
      start = offset + front.length + 1 ∧ stop = start + n ∧ BadIndex rest n fault := by
  induction h with
  | @badIndex offset n rest _ hbad =>
      cases hending
      exact ⟨[], rest, n, rfl, rfl, rfl, hbad⟩
  | @name offset name _ _ _ _ _ _ ih =>
      rcases ih hending with ⟨front, rest, n, rfl, hstart, hstop, hbad⟩
      refine ⟨Byte.dot :: (name ++ front), rest, n, ?_, ?_, hstop, hbad⟩
      · rw [List.cons_append, List.append_assoc]
      · rw [hstart, List.length_cons, List.length_append]
        omega
  | @index offset token _ _ _ _ _ ih =>
      rcases ih hending with ⟨front, rest, n, rfl, hstart, hstop, hbad⟩
      refine ⟨Byte.openBracket :: (token ++ Byte.closeBracket :: front), rest, n,
        ?_, ?_, hstop, hbad⟩
      · rw [List.cons_append, List.append_assoc, List.cons_append]
      · rw [hstart, List.length_cons, List.length_append, List.length_cons]
        omega
  | _ =>
      cases hending

theorem exists_token_of_mem {path : Path} {start stop i : Nat}
    (h : .index start stop i ∈ path.read.segments) :
    ∃ front token rest,
      path = front ++ Byte.openBracket :: (token ++ Byte.closeBracket :: rest) ∧
        IsIndexToken token ∧ stop = front.length + 1 + token.length + 1 := by
  by_cases hpath : path = []
  · rw [hpath] at h
    cases h
  · have hreads := reads_read hpath
    generalize path.read.segments = segments at h hreads
    generalize path.read.ending = ending at hreads
    cases hreads with
    | badName _ =>
        cases h
    | @name name _ _ _ _ _ hread =>
        rcases List.mem_cons.mp h with hfirst | hmem
        · cases hfirst
        · rcases hread.exists_token hmem with ⟨front, token, rest, rfl, htoken, hstop⟩
          refine ⟨name ++ front, token, rest,
            (List.append_assoc name front _).symm, htoken, ?_⟩
          rw [hstop, List.length_append]

theorem exists_badIndex_of_ending {path : Path} {start stop : Nat} {fault : PathFault}
    (h : path.read.ending = .badIndex start stop fault) :
    ∃ front rest n, path = front ++ Byte.openBracket :: rest ∧ start = front.length + 1 ∧
      stop = start + n ∧ BadIndex rest n fault := by
  by_cases hpath : path = []
  · rw [hpath] at h
    cases h
  · have hreads := reads_read hpath
    generalize path.read.ending = ending at h hreads
    generalize path.read.segments = segments at hreads
    cases hreads with
    | badName _ =>
        cases h
    | @name name _ _ _ _ _ hread =>
        rcases hread.exists_badIndex h with ⟨front, rest, n, rfl, hstart, hstop, hbad⟩
        refine ⟨name ++ front, rest, n, (List.append_assoc name front _).symm, ?_, hstop, hbad⟩
        rw [hstart, List.length_append]

end Path
end Stencil
