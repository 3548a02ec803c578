import Stencil.Proofs.Path.Assignment

/-!
# Faults of paths

Reading a path notices only what is wrong with the path itself, and passes on no index
that is too large for an array.  So storing along a path that has been read always finds
room, and fails at the path's own fault or at a value of the wrong kind.
-/

namespace Stencil

def PathFault.IsSyntactic : PathFault → Prop
  | .notFound _ => False
  | .notADict _ _ => False
  | .notAnArray _ _ => False
  | .noRoom => False
  | _ => True

def PathFault.IsMismatch (access : Access) : PathFault → Prop
  | .notADict found _ => found = access
  | .notAnArray found _ => found = access
  | _ => False

namespace Path

/-!
# Reading
-/

def Ending.fault? : Ending → Option PathFault
  | .complete => none
  | .stray _ => some .strayByte
  | .badName _ fault => some fault
  | .badIndex _ _ fault => some fault

structure Reading.Sound (r : Reading) : Prop where
  storable : ∀ segment ∈ r.segments, Storable segment.step
  syntactic : ∀ fault, r.ending.fault? = some fault → fault.IsSyntactic

theorem Reading.Sound.endingIn {ending : Ending}
    (h : ∀ fault, ending.fault? = some fault → fault.IsSyntactic) :
    (Reading.endingIn ending).Sound := by
  constructor
  · intro segment hsegment
    cases hsegment
  · exact h

theorem Reading.Sound.endingAt {ending : Ending} {fault : PathFault}
    (hending : ending.fault? = some fault) (hfault : fault.IsSyntactic) :
    (Reading.endingIn ending).Sound := by
  apply Reading.Sound.endingIn
  intro other hother
  rw [hending, Option.some.injEq] at hother
  rw [← hother]
  exact hfault

theorem Reading.Sound.prepend {r : Reading} (h : r.Sound) {segment : Segment}
    (hsegment : Storable segment.step) : (r.prepend segment).Sound := by
  constructor
  · intro other hother
    cases hother with
    | head =>
        exact hsegment
    | tail _ hmem =>
        exact h.storable other hmem
  · exact h.syntactic

theorem nameFault?_isSyntactic {name : Bytes} {fault : PathFault}
    (h : nameFault? name = some fault) : fault.IsSyntactic := by
  unfold nameFault? at h
  split at h
  · cases h
    trivial
  · split at h
    · cases h
      trivial
    · cases h

theorem tokenFault?_isSyntactic {token : Bytes} {fault : PathFault}
    (h : tokenFault? token = some fault) : fault.IsSyntactic := by
  unfold tokenFault? at h
  split at h
  · cases h
    trivial
  · split at h
    · cases h
      trivial
    · cases h

theorem tokenIndex_isSyntactic {token : Bytes} {fault : PathFault}
    (h : tokenIndex token = .error fault) : fault.IsSyntactic := by
  unfold tokenIndex at h
  split at h
  · cases h
    trivial
  · split at h
    · cases h
    · cases h
      trivial

theorem sound_closeName {rest : Reading} (h : rest.Sound) (bytes : Bytes) (start stop : Nat) :
    (closeName bytes start stop rest).Sound := by
  unfold closeName
  simp only
  split
  · rename_i fault hfault
    exact Reading.Sound.endingAt rfl (nameFault?_isSyntactic hfault)
  · apply h.prepend
    trivial

theorem sound_closeIndex {rest : Reading} (h : rest.Sound) (bytes : Bytes) (start stop : Nat) :
    (closeIndex bytes start stop rest).Sound := by
  unfold closeIndex
  simp only
  split
  · rename_i fault hfault
    exact Reading.Sound.endingAt rfl (tokenFault?_isSyntactic hfault)
  · split
    · rename_i i hindex
      apply h.prepend
      rcases (tokenIndex_eq_ok_iff _ i).mp hindex with ⟨_, hbound, hi⟩
      rw [hi] at hbound
      exact hbound
    · rename_i fault hfault
      exact Reading.Sound.endingAt rfl (tokenIndex_isSyntactic hfault)

theorem sound_openIndex (token : Bytes) (start stop : Nat) :
    (openIndex token start stop).Sound := by
  unfold openIndex
  split
  · rename_i fault hfault
    exact Reading.Sound.endingAt rfl (tokenFault?_isSyntactic hfault)
  · exact Reading.Sound.endingAt rfl trivial

theorem sound_complete : (Reading.endingIn .complete).Sound := by
  apply Reading.Sound.endingIn
  intro fault hfault
  cases hfault

theorem sound_readFrom (expecting : Expecting) (offset : Nat) (rest : Bytes) :
    (readFrom expecting offset rest).Sound := by
  induction expecting, offset, rest using readFrom.induct with
  | case1 start bytes offset =>
      rw [readFrom]
      exact sound_closeName sound_complete bytes start offset
  | case2 start bytes offset rest ih =>
      rw [readFrom, if_pos rfl]
      exact sound_closeName ih bytes start offset
  | case3 start bytes offset rest hdot ih =>
      rw [readFrom, if_neg hdot, if_pos rfl]
      exact sound_closeName ih bytes start offset
  | case4 start bytes offset b rest hdot hbracket ih =>
      rw [readFrom, if_neg hdot, if_neg hbracket]
      exact ih
  | case5 start bytes offset =>
      rw [readFrom]
      exact sound_openIndex bytes start offset
  | case6 start bytes offset rest ih =>
      rw [readFrom, if_pos rfl]
      exact sound_closeIndex ih bytes start offset
  | case7 start bytes offset b rest hbracket ih =>
      rw [readFrom, if_neg hbracket]
      exact ih
  | case8 offset =>
      rw [readFrom]
      exact sound_complete
  | case9 offset rest ih =>
      rw [readFrom, if_pos rfl]
      exact ih
  | case10 offset rest hdot ih =>
      rw [readFrom, if_neg hdot, if_pos rfl]
      exact ih
  | case11 offset b rest hdot hbracket =>
      rw [readFrom, if_neg hdot, if_neg hbracket]
      exact Reading.Sound.endingAt rfl trivial

theorem sound_read (path : Path) : path.read.Sound := by
  unfold read
  split
  · exact Reading.Sound.endingAt rfl trivial
  · exact sound_readFrom _ _ _

end Path
end Stencil
