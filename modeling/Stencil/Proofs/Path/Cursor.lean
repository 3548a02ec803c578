import Stencil.Proofs.Bytes.Slice
import Stencil.Proofs.Path.Root

/-!
# Reading a path by offsets

A cursor knows a path by an offset alone.  It takes slices of the path to find the name,
the separator or the index that stands at its offset.  Where the offset is within the path
no slice is out of range, and the cursor finds what reading the path finds there.
-/

namespace Stencil
namespace Path
namespace Cursor

/-- The name at an offset, of which not more than an excerpt is shown when it is too
long. -/
def name (path : Path) (offset : Nat) : Option (Except PathFault Bytes) := do
  let rest ← path.sliceFrom? offset
  let length := rest.findIdx isSeparator
  if length = 0 then some (.error .emptyName)
  else if nameBound ≤ length then
    let excerpt ← rest.slice? 0 8
    some (.error (.nameTooLong excerpt))
  else
    let bytes ← rest.slice? 0 length
    some (.ok bytes)

def separator (path : Path) (offset : Nat) : Option (Option UInt8) := do
  let rest ← path.sliceFrom? offset
  some rest.head?

def index (path : Path) (offset : Nat) : Option (Nat × Except PathFault Nat) := do
  let rest ← path.sliceFrom? offset
  let length := rest.findIdx (· == Byte.closeBracket)
  if indexTokenBound ≤ length then some (offset, .error .indexTooLong)
  else if length = 0 then some (offset, .error .indexEmpty)
  else if length = rest.length then some (offset + length, .error .indexNotTerminated)
  else
    let token ← rest.slice? 0 length
    some (offset + length + 1, tokenIndex token)

/-!
# Names
-/

theorem findIdx_isSeparator {bytes rest : Bytes} (hfree : SeparatorFree bytes)
    (hrest : AtSeparator rest) : (bytes ++ rest).findIdx isSeparator = bytes.length := by
  have hbytes : bytes.findIdx isSeparator = bytes.length := by
    rw [List.findIdx_eq_length]
    intro b hb
    rw [← Bool.not_eq_true', not_isSeparator_iff]
    exact hfree b hb
  cases rest with
  | nil =>
      rw [List.append_nil, hbytes]
  | cons b rest =>
      have hb : isSeparator b = true := by
        rcases hrest b rfl with rfl | rfl <;> rfl
      rw [List.findIdx_append, hbytes, if_neg (Nat.lt_irrefl _), List.findIdx_cons, hb]
      exact Nat.zero_add _

variable {path : Path} {rest : Bytes} {offset : Nat}

theorem name_eq {bytes more : Bytes} (h : Bytes.Remains path offset (bytes ++ more))
    (hfree : SeparatorFree bytes) (hmore : AtSeparator more) :
    name path offset =
      match nameFault? bytes with
      | some fault => some (.error fault)
      | none => some (.ok bytes) := by
  unfold name nameFault?
  simp only [h.sliceFrom?, Option.bind_eq_bind, Option.bind_some,
    findIdx_isSeparator hfree hmore]
  cases bytes with
  | nil =>
      rfl
  | cons b bytes =>
      have hlength : (b :: bytes).length ≠ 0 := Nat.succ_ne_zero _
      rw [if_neg hlength, List.isEmpty_cons, if_neg Bool.false_ne_true]
      by_cases hlong : nameBound ≤ (b :: bytes).length
      · have height : 8 ≤ (b :: bytes).length := Nat.le_trans (by decide) hlong
        have hcut : Bytes.slice? (b :: bytes ++ more) 0 8 = some ((b :: bytes).take 8) := by
          rw [Bytes.slice?_take (List.length_append ▸ Nat.le_add_right_of_le height),
            List.take_append_of_le_length height]
        rw [if_pos hlong, if_pos hlong, hcut]
        rfl
      · have hcut : Bytes.slice? (b :: bytes ++ more) 0 (b :: bytes).length =
            some (b :: bytes) := by
          rw [Bytes.slice?_take (List.length_append ▸ Nat.le_add_right _ _), List.take_left]
        rw [if_neg hlong, if_neg hlong, hcut]
        rfl

/-- The name at an offset is at fault, or the cursor passes it and a
separator is due behind it. -/
theorem name_cases (h : Bytes.Remains path offset rest) :
    (∃ fault, name path offset = some (.error fault) ∧
      readFrom (.name offset rest) offset rest = .endingIn (.badName offset fault)) ∨
    ∃ bytes more, rest = bytes ++ more ∧ bytes ≠ [] ∧ AtSeparator more ∧
      name path offset = some (.ok bytes) ∧
      readFrom (.name offset rest) offset rest =
        (readFrom .separator (offset + bytes.length) more).prepend (.name offset bytes) := by
  rcases exists_name_split rest with ⟨bytes, more, rfl, hfree, hmore⟩
  have hname := name_eq h hfree hmore
  have hread := readFrom_name hfree hmore offset
  rw [closeName, Nat.add_sub_cancel_left, List.take_length] at hread
  cases hfault : nameFault? bytes with
  | none =>
      simp only [hfault] at hname hread
      exact Or.inr ⟨bytes, more, rfl, ((nameFault?_eq_none_iff bytes).mp hfault).left,
        hmore, hname, hread⟩
  | some fault =>
      simp only [hfault] at hname hread
      exact Or.inl ⟨fault, hname, hread⟩

/-!
# Separators
-/

theorem separator_eq (h : Bytes.Remains path offset rest) :
    separator path offset = some rest.head? := by
  rw [separator, h.sliceFrom?]
  rfl

/-!
# Indices
-/

theorem findIdx_closeBracket {token : Bytes} (hopen : Byte.closeBracket ∉ token) :
    token.findIdx (· == Byte.closeBracket) = token.length := by
  rw [List.findIdx_eq_length]
  intro b hb
  rw [beq_eq_false_iff_ne]
  rintro rfl
  exact hopen hb

theorem findIdx_closeBracket_append {token : Bytes} (hopen : Byte.closeBracket ∉ token)
    (more : Bytes) :
    (token ++ Byte.closeBracket :: more).findIdx (· == Byte.closeBracket) = token.length := by
  rw [List.findIdx_append, findIdx_closeBracket hopen, if_neg (Nat.lt_irrefl _),
    List.findIdx_cons, beq_self_eq_true]
  exact Nat.zero_add _

theorem tokenFault?_match {α : Type} (token : Bytes) (f : PathFault → α) (a : α) :
    (if indexTokenBound ≤ token.length then f .indexTooLong
      else if token.length = 0 then f .indexEmpty else a) =
      match tokenFault? token with
      | some fault => f fault
      | none => a := by
  unfold tokenFault?
  by_cases hlong : indexTokenBound ≤ token.length
  · rw [if_pos hlong, if_pos hlong]
  · rw [if_neg hlong, if_neg hlong]
    cases token <;> rfl

theorem index_closed_eq {token more : Bytes}
    (h : Bytes.Remains path offset (token ++ Byte.closeBracket :: more))
    (hopen : Byte.closeBracket ∉ token) :
    index path offset =
      match tokenFault? token with
      | some fault => some (offset, .error fault)
      | none => some (offset + token.length + 1, tokenIndex token) := by
  have hlength : token.length < (token ++ Byte.closeBracket :: more).length := by
    rw [List.length_append, List.length_cons]
    omega
  have hcut : Bytes.slice? (token ++ Byte.closeBracket :: more) 0 token.length =
      some token := by
    rw [Bytes.slice?_take (Nat.le_of_lt hlength), List.take_left]
  unfold index
  simp only [h.sliceFrom?, Option.bind_eq_bind, Option.bind_some]
  rw [findIdx_closeBracket_append hopen, if_neg (Nat.ne_of_lt hlength), hcut,
    tokenFault?_match token fun fault => some (offset, Except.error fault)]
  rfl

theorem index_open_eq (h : Bytes.Remains path offset rest) (hopen : Byte.closeBracket ∉ rest) :
    index path offset =
      match tokenFault? rest with
      | some fault => some (offset, .error fault)
      | none => some (offset + rest.length, .error .indexNotTerminated) := by
  unfold index
  simp only [h.sliceFrom?, Option.bind_eq_bind, Option.bind_some]
  rw [findIdx_closeBracket hopen, if_pos rfl,
    tokenFault?_match rest fun fault => some (offset, Except.error fault)]

theorem index_cases (h : Bytes.Remains path offset rest) :
    (∃ n fault, n ≤ rest.length ∧ index path offset = some (offset + n, .error fault) ∧
      readFrom (.index offset rest) offset rest =
        .endingIn (.badIndex offset (offset + n) fault)) ∨
    ∃ token more i, rest = token ++ Byte.closeBracket :: more ∧ i < maxArrayLength ∧
      index path offset = some (offset + token.length + 1, .ok i) ∧
      readFrom (.index offset rest) offset rest =
        (readFrom .separator (offset + token.length + 1) more).prepend
          (.index offset (offset + token.length + 1) i) := by
  by_cases hclosed : Byte.closeBracket ∈ rest
  · rcases List.eq_append_cons_of_mem hclosed with ⟨token, more, rfl, hopen⟩
    have hindex := index_closed_eq h hopen
    have hread := readFrom_index hopen more offset
    rw [closeIndex, Nat.add_sub_cancel_left, List.take_length] at hread
    cases hfault : tokenFault? token with
    | some fault =>
        simp only [hfault] at hindex hread
        exact Or.inl ⟨0, fault, Nat.zero_le _, hindex, hread⟩
    | none =>
        simp only [hfault] at hindex hread
        cases hvalue : tokenIndex token with
        | error fault =>
            have hlength : token.length + 1 ≤ (token ++ Byte.closeBracket :: more).length := by
              rw [List.length_append, List.length_cons]
              omega
            simp only [hvalue] at hindex hread
            exact Or.inl ⟨token.length + 1, fault, hlength, hindex, hread⟩
        | ok i =>
            have hi := (tokenIndex_eq_ok_iff token i).mp hvalue
            simp only [hvalue] at hindex hread
            exact Or.inr ⟨token, more, i, rfl, hi.right.right ▸ hi.right.left, hindex, hread⟩
  · have hindex := index_open_eq h hclosed
    have hread := readFrom_index_unclosed hclosed offset
    rw [openIndex] at hread
    cases hfault : tokenFault? rest with
    | some fault =>
        simp only [hfault] at hindex hread
        exact Or.inl ⟨0, fault, Nat.zero_le _, hindex, hread⟩
    | none =>
        simp only [hfault] at hindex hread
        exact Or.inl ⟨rest.length, _, Nat.le_refl _, hindex, hread⟩

/-- An index that the end of the path leaves open leaves the cursor there. -/
example : index (Bytes.ofText "a[1") 2 = some (3, .error .indexNotTerminated) := rfl

end Cursor
end Path
end Stencil
