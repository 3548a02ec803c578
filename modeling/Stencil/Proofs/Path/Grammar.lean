import Stencil.Path.Lookup

/-!
# The grammar of paths

A path is a name followed by any number of dotted names and bracketed indices.  Reading a
path to its end succeeds exactly on the texts of this grammar, and looking a path up
follows the steps that it spells.
-/

namespace Stencil
namespace Path

/-!
# Grammar
-/

structure IsName (name : Bytes) : Prop where
  nonempty : name ≠ []
  short : name.length < nameBound
  no_dot : Byte.dot ∉ name
  no_bracket : Byte.openBracket ∉ name

/-- Leading zeros are allowed, so that one index has several tokens. -/
structure IsIndexToken (token : Bytes) : Prop where
  nonempty : token ≠ []
  short : token.length < indexTokenBound
  digits : ∀ b ∈ token, Byte.isDigit b = true
  bounded : Bytes.digitsValue token < maxArrayLength

/-- What may stand behind a name or a closed index, and the steps that it adds. -/
inductive Continues : Bytes → List Step → Prop where
  | done : Continues [] []
  | name {name rest : Bytes} {steps : List Step} :
      IsName name → Continues rest steps →
      Continues (Byte.dot :: (name ++ rest)) (.name name :: steps)
  | index {token rest : Bytes} {steps : List Step} :
      IsIndexToken token → Continues rest steps →
      Continues (Byte.openBracket :: (token ++ Byte.closeBracket :: rest))
        (.index (Bytes.digitsValue token) :: steps)

inductive Spells : Path → List Step → Prop where
  | start {name rest : Bytes} {steps : List Step} :
      IsName name → Continues rest steps →
      Spells (name ++ rest) (.name name :: steps)

def SeparatorFree (name : Bytes) : Prop :=
  ∀ b ∈ name, b ≠ Byte.dot ∧ b ≠ Byte.openBracket

def AtSeparator (rest : Bytes) : Prop :=
  ∀ b, rest.head? = some b → b = Byte.dot ∨ b = Byte.openBracket

theorem IsName.separatorFree {name : Bytes} (h : IsName name) : SeparatorFree name := by
  intro b hb
  constructor
  · rintro rfl
    exact h.no_dot hb
  · rintro rfl
    exact h.no_bracket hb

theorem Continues.atSeparator {rest : Bytes} {steps : List Step} (h : Continues rest steps) :
    AtSeparator rest := by
  intro b hb
  cases h with
  | done =>
      cases hb
  | name _ _ =>
      left
      simpa using hb.symm
  | index _ _ =>
      right
      simpa using hb.symm

theorem IsIndexToken.closeBracket_notMem {token : Bytes} (h : IsIndexToken token) :
    Byte.closeBracket ∉ token := by
  intro hmem
  have hdigit := h.digits _ hmem
  revert hdigit
  decide

theorem Continues.append {rest more : Bytes} {steps others : List Step}
    (h : Continues rest steps) (hmore : Continues more others) :
    Continues (rest ++ more) (steps ++ others) := by
  induction h with
  | done =>
      exact hmore
  | name hname _ ih =>
      simpa using Continues.name hname ih
  | index htoken _ ih =>
      simpa using Continues.index htoken ih

theorem Spells.append {path : Path} {more : Bytes} {steps others : List Step}
    (h : Spells path steps) (hmore : Continues more others) :
    Spells (path ++ more) (steps ++ others) := by
  cases h with
  | start hname hrest =>
      simpa using Spells.start hname (hrest.append hmore)

/-!
# Faults of single segments
-/

theorem nameFault?_eq_none_iff (name : Bytes) :
    nameFault? name = none ↔ name ≠ [] ∧ name.length < nameBound := by
  unfold nameFault?
  cases name with
  | nil =>
      simp
  | cons b rest =>
      simp

theorem tokenFault?_eq_none_iff (token : Bytes) :
    tokenFault? token = none ↔ token ≠ [] ∧ token.length < indexTokenBound := by
  unfold tokenFault?
  cases token with
  | nil =>
      simp [indexTokenBound]
  | cons b rest =>
      simp

theorem tokenIndex_eq_ok_iff (token : Bytes) (i : Nat) :
    tokenIndex token = .ok i ↔
      (∀ b ∈ token, Byte.isDigit b = true) ∧ Bytes.digitsValue token < maxArrayLength ∧
        Bytes.digitsValue token = i := by
  unfold tokenIndex
  by_cases hdigits : token.all Byte.isDigit = true
  · have hall := List.all_eq_true.mp hdigits
    by_cases hbound : Bytes.digitsValue token < maxArrayLength
    · simp [hdigits, hbound]
      exact fun _ => hall
    · simp [hdigits, hbound]
  · have hnot : ¬ ∀ b ∈ token, Byte.isDigit b = true := by
      intro hall
      exact hdigits (List.all_eq_true.mpr hall)
    simp [hdigits, hnot]

theorem isName_iff {name : Bytes} (hfree : SeparatorFree name) :
    IsName name ↔ nameFault? name = none := by
  rw [nameFault?_eq_none_iff]
  constructor
  · intro h
    exact ⟨h.nonempty, h.short⟩
  · rintro ⟨hne, hshort⟩
    exact ⟨hne, hshort, fun h => (hfree _ h).left rfl, fun h => (hfree _ h).right rfl⟩

theorem isIndexToken_iff (token : Bytes) :
    IsIndexToken token ↔
      tokenFault? token = none ∧ tokenIndex token = .ok (Bytes.digitsValue token) := by
  rw [tokenFault?_eq_none_iff, tokenIndex_eq_ok_iff]
  constructor
  · intro h
    exact ⟨⟨h.nonempty, h.short⟩, h.digits, h.bounded, rfl⟩
  · rintro ⟨⟨hne, hshort⟩, hdigits, hbounded, _⟩
    exact ⟨hne, hshort, hdigits, hbounded⟩

/-!
# Reading one segment

The reader passes over the bytes of a segment without looking at them, and
judges the segment where it ends.  Behind a name it goes on as it does behind
any separator that is due.
-/

theorem readFrom_name_pass {name : Bytes} (hfree : SeparatorFree name) (start : Nat)
    (bytes rest : Bytes) (offset : Nat) :
    readFrom (.name start bytes) offset (name ++ rest) =
      readFrom (.name start bytes) (offset + name.length) rest := by
  induction name generalizing offset with
  | nil =>
      rfl
  | cons b name ih =>
      have hb := hfree b (by simp)
      have htail : SeparatorFree name := fun c hc => hfree c (by simp [hc])
      rw [List.cons_append, readFrom, if_neg hb.left, if_neg hb.right, ih htail]
      rw [List.length_cons, Nat.add_assoc, Nat.add_comm 1]

theorem readFrom_index_pass {token : Bytes} (hopen : Byte.closeBracket ∉ token) (start : Nat)
    (bytes rest : Bytes) (offset : Nat) :
    readFrom (.index start bytes) offset (token ++ rest) =
      readFrom (.index start bytes) (offset + token.length) rest := by
  induction token generalizing offset with
  | nil =>
      rfl
  | cons b token ih =>
      have hb : b ≠ Byte.closeBracket := by
        rintro rfl
        exact hopen (by simp)
      have htail : Byte.closeBracket ∉ token := fun h => hopen (by simp [h])
      rw [List.cons_append, readFrom, if_neg hb, ih htail]
      rw [List.length_cons, Nat.add_assoc, Nat.add_comm 1]

theorem readFrom_name_stop {rest : Bytes} (hrest : AtSeparator rest) (start : Nat)
    (bytes : Bytes) (offset : Nat) :
    readFrom (.name start bytes) offset rest =
      closeName bytes start offset (readFrom .separator offset rest) := by
  cases rest with
  | nil =>
      rfl
  | cons b rest =>
      have hne : Byte.openBracket ≠ Byte.dot := by decide
      rcases hrest b rfl with rfl | rfl
      · simp [readFrom]
      · simp [readFrom, hne]

theorem readFrom_name {name rest : Bytes} (hfree : SeparatorFree name)
    (hrest : AtSeparator rest) (start : Nat) :
    readFrom (.name start (name ++ rest)) start (name ++ rest) =
      closeName name start (start + name.length)
        (readFrom .separator (start + name.length) rest) := by
  rw [readFrom_name_pass hfree, readFrom_name_stop hrest]
  simp [closeName]

theorem readFrom_index {token : Bytes} (hopen : Byte.closeBracket ∉ token) (rest : Bytes)
    (start : Nat) :
    readFrom (.index start (token ++ Byte.closeBracket :: rest)) start
        (token ++ Byte.closeBracket :: rest) =
      closeIndex token start (start + token.length)
        (readFrom .separator (start + token.length + 1) rest) := by
  rw [readFrom_index_pass hopen, readFrom]
  simp [closeIndex]

theorem readFrom_index_unclosed {token : Bytes} (hopen : Byte.closeBracket ∉ token)
    (start : Nat) :
    readFrom (.index start token) start token =
      openIndex token start (start + token.length) := by
  have h := readFrom_index_pass hopen start token [] start
  rw [List.append_nil] at h
  rw [h, readFrom]

theorem closeName_of_isName {name : Bytes} (h : IsName name) (start : Nat) (rest : Reading) :
    closeName name start (start + name.length) rest = rest.prepend (.name start name) := by
  have hfault := (isName_iff h.separatorFree).mp h
  simp [closeName, hfault]

theorem closeIndex_of_isIndexToken {token : Bytes} (h : IsIndexToken token) (start : Nat)
    (rest : Reading) :
    closeIndex token start (start + token.length) rest =
      rest.prepend (.index start (start + token.length + 1) (Bytes.digitsValue token)) := by
  rcases (isIndexToken_iff token).mp h with ⟨hfault, hindex⟩
  simp [closeIndex, hfault, hindex]

theorem isName_of_closeName_complete {name : Bytes} (hfree : SeparatorFree name) {start : Nat}
    {rest : Reading}
    (h : (closeName name start (start + name.length) rest).ending = .complete) :
    IsName name := by
  rw [isName_iff hfree]
  cases hfault : nameFault? name with
  | none =>
      rfl
  | some fault =>
      simp [closeName, hfault, Reading.endingIn] at h

theorem isIndexToken_of_closeIndex_complete {token : Bytes} {start : Nat} {rest : Reading}
    (h : (closeIndex token start (start + token.length) rest).ending = .complete) :
    IsIndexToken token := by
  rw [isIndexToken_iff]
  cases hfault : tokenFault? token with
  | some fault =>
      simp [closeIndex, hfault, Reading.endingIn] at h
  | none =>
      cases hindex : tokenIndex token with
      | error fault =>
          simp [closeIndex, hfault, hindex, Reading.endingIn] at h
      | ok i =>
          have hi := ((tokenIndex_eq_ok_iff token i).mp hindex).right.right
          simp [hi]

theorem openIndex_ending_ne_complete (token : Bytes) (start stop : Nat) :
    (openIndex token start stop).ending ≠ .complete := by
  unfold openIndex
  cases tokenFault? token with
  | none =>
      simp [Reading.endingIn]
  | some fault =>
      simp [Reading.endingIn]

/-!
# Reading a whole path
-/

theorem exists_name_split (bytes : Bytes) :
    ∃ name rest, bytes = name ++ rest ∧ SeparatorFree name ∧ AtSeparator rest := by
  induction bytes with
  | nil =>
      exact ⟨[], [], rfl, by simp [SeparatorFree], by simp [AtSeparator]⟩
  | cons b bytes ih =>
      rcases ih with ⟨name, rest, hbytes, hfree, hrest⟩
      by_cases hb : b = Byte.dot ∨ b = Byte.openBracket
      · refine ⟨[], b :: bytes, rfl, by simp [SeparatorFree], ?_⟩
        intro c hc
        have hbc : b = c := by simpa using hc
        rw [← hbc]
        exact hb
      · refine ⟨b :: name, rest, by simp [hbytes], ?_, hrest⟩
        intro c hc
        rcases List.mem_cons.mp hc with rfl | hmem
        · exact not_or.mp hb
        · exact hfree c hmem

theorem Continues.readFrom {rest : Bytes} {steps : List Step} (h : Continues rest steps) :
    ∀ offset, (readFrom .separator offset rest).ending = .complete ∧
      (readFrom .separator offset rest).steps = steps := by
  induction h with
  | done =>
      intro offset
      exact ⟨rfl, rfl⟩
  | @name name rest steps hname hrest ih =>
      intro offset
      rcases ih (offset + 1 + name.length) with ⟨hending, hsteps⟩
      rw [Path.readFrom, if_pos rfl, readFrom_name hname.separatorFree hrest.atSeparator,
        closeName_of_isName hname]
      exact ⟨hending, congrArg (Step.name name :: ·) hsteps⟩
  | @index token rest steps htoken _ ih =>
      intro offset
      rcases ih (offset + 1 + token.length + 1) with ⟨hending, hsteps⟩
      rw [Path.readFrom, if_neg (by decide), if_pos rfl,
        readFrom_index htoken.closeBracket_notMem, closeIndex_of_isIndexToken htoken]
      exact ⟨hending, congrArg (Step.index (Bytes.digitsValue token) :: ·) hsteps⟩

/-- Only texts of the grammar are read to their end. -/
theorem continues_of_complete (rest : Bytes) (offset : Nat)
    (h : (readFrom .separator offset rest).ending = .complete) :
    Continues rest (readFrom .separator offset rest).steps := by
  match rest with
  | [] =>
      exact Continues.done
  | b :: rest =>
      rw [readFrom] at h ⊢
      by_cases hdot : b = Byte.dot
      · rw [if_pos hdot] at h ⊢
        rcases exists_name_split rest with ⟨name, more, hsplit, hfree, hmore⟩
        rw [hsplit, readFrom_name hfree hmore] at h ⊢
        have hname := isName_of_closeName_complete hfree h
        rw [closeName_of_isName hname] at h ⊢
        have htail := continues_of_complete more (offset + 1 + name.length) h
        rw [hdot]
        exact Continues.name hname htail
      · rw [if_neg hdot] at h ⊢
        by_cases hbracket : b = Byte.openBracket
        · rw [if_pos hbracket] at h ⊢
          by_cases hclosed : Byte.closeBracket ∈ rest
          · rcases List.eq_append_cons_of_mem hclosed with ⟨token, more, hsplit, hopen⟩
            rw [hsplit, readFrom_index hopen] at h ⊢
            have htoken := isIndexToken_of_closeIndex_complete h
            rw [closeIndex_of_isIndexToken htoken] at h ⊢
            have htail := continues_of_complete more (offset + 1 + token.length + 1) h
            rw [hbracket]
            exact Continues.index htoken htail
          · rw [readFrom_index_unclosed hclosed] at h
            exact absurd h (openIndex_ending_ne_complete _ _ _)
        · rw [if_neg hbracket] at h
          simp [Reading.endingIn] at h
termination_by rest.length
decreasing_by
  all_goals
    subst hsplit
    simp only [List.length_cons, List.length_append]
    omega

theorem spells_iff_read (path : Path) (steps : List Step) :
    Spells path steps ↔ path.read.ending = .complete ∧ path.read.steps = steps := by
  constructor
  · rintro ⟨hname, hrest⟩
    rename_i name rest steps
    have hne : (name ++ rest).isEmpty = false := by
      simpa using fun h => absurd h hname.nonempty
    rcases hrest.readFrom (0 + name.length) with ⟨hending, hsteps⟩
    rw [read, hne, if_neg (by simp), readFrom_name hname.separatorFree hrest.atSeparator,
      closeName_of_isName hname]
    exact ⟨hending, congrArg (Step.name name :: ·) hsteps⟩
  · rintro ⟨hending, rfl⟩
    unfold read at hending ⊢
    split at hending
    · simp [Reading.endingIn] at hending
    · rename_i hne
      rcases exists_name_split path with ⟨name, rest, hsplit, hfree, hrest⟩
      rw [if_neg hne]
      rw [hsplit, readFrom_name hfree hrest] at hending ⊢
      have hname := isName_of_closeName_complete hfree hending
      rw [closeName_of_isName hname] at hending ⊢
      exact Spells.start hname (continues_of_complete rest _ hending)

theorem Spells.unique {path : Path} {steps others : List Step} (h : Spells path steps)
    (hother : Spells path others) : steps = others := by
  rw [spells_iff_read] at h hother
  rw [← h.right, ← hother.right]

end Path
end Stencil
