import Stencil.Bytes

/-!
# Slices

A slice is cut off at the end of a text.  One that is asked for with `slice?` is
there only when its offsets are in order and within the text, so that asking for it
shows whether it is in range.  A part of a text is likewise written over with
`overwrite?` only when it is there.
-/

namespace Stencil
namespace Bytes

def slice (bytes : Bytes) (start stop : Nat) : Bytes :=
  (bytes.drop start).take (stop - start)

theorem slice_self (bytes : Bytes) (offset : Nat) : bytes.slice offset offset = [] := by
  simp [slice]

theorem slice_append (front middle back : Bytes) :
    (front ++ (middle ++ back)).slice front.length (front.length + middle.length) =
      middle := by
  simp [slice]

theorem slice_append_slice (bytes : Bytes) {start middle stop : Nat} (hstart : start ≤ middle)
    (hstop : middle ≤ stop) :
    bytes.slice start middle ++ bytes.slice middle stop = bytes.slice start stop := by
  have hlength : stop - start = (middle - start) + (stop - middle) := by omega
  have hdrop : bytes.drop middle = (bytes.drop start).drop (middle - start) := by
    rw [List.drop_drop, Nat.add_sub_cancel' hstart]
  rw [slice, slice, slice, hlength, hdrop, List.take_add]

/-!
# Slices that may be out of range
-/

def slice? (bytes : Bytes) (start stop : Nat) : Option Bytes :=
  if start ≤ stop ∧ stop ≤ bytes.length then some (bytes.slice start stop) else none

def sliceFrom? (bytes : Bytes) (start : Nat) : Option Bytes :=
  bytes.slice? start bytes.length

theorem slice?_take {bytes : Bytes} {stop : Nat} (h : stop ≤ bytes.length) :
    bytes.slice? 0 stop = some (bytes.take stop) :=
  if_pos ⟨Nat.zero_le stop, h⟩

/-- The offset is within the text, and `rest` is what remains of it from there on. -/
def Remains (bytes : Bytes) (offset : Nat) (rest : Bytes) : Prop :=
  ∃ front, bytes = front ++ rest ∧ offset = front.length

theorem remains_start (bytes : Bytes) : Remains bytes 0 bytes :=
  ⟨[], rfl, rfl⟩

namespace Remains

variable {bytes part rest : Bytes} {offset : Nat}

theorem length_eq (h : Remains bytes offset rest) : bytes.length = offset + rest.length := by
  rcases h with ⟨front, rfl, rfl⟩
  exact List.length_append

theorem offset_le (h : Remains bytes offset rest) : offset ≤ bytes.length := by
  rw [h.length_eq]
  exact Nat.le_add_right offset _

theorem behind (h : Remains bytes offset (part ++ rest)) :
    Remains bytes (offset + part.length) rest := by
  rcases h with ⟨front, rfl, rfl⟩
  exact ⟨front ++ part, (List.append_assoc front part rest).symm, List.length_append.symm⟩

theorem next {b : UInt8} (h : Remains bytes offset (b :: rest)) :
    Remains bytes (offset + 1) rest := by
  rw [← List.singleton_append] at h
  exact h.behind

theorem getElem? (h : Remains bytes offset rest) : bytes[offset]? = rest.head? := by
  rcases h with ⟨front, rfl, rfl⟩
  rw [List.getElem?_append_right (Nat.le_refl _), Nat.sub_self, List.head?_eq_getElem?]

theorem slice? (h : Remains bytes offset (part ++ rest)) :
    bytes.slice? offset (offset + part.length) = some part := by
  have hstop := h.behind.offset_le
  rcases h with ⟨front, rfl, rfl⟩
  rw [Bytes.slice?, if_pos ⟨Nat.le_add_right _ _, hstop⟩, slice_append]

theorem sliceFrom? (h : Remains bytes offset rest) : bytes.sliceFrom? offset = some rest := by
  have hlength := h.length_eq
  rw [← List.append_nil rest] at h
  rw [Bytes.sliceFrom?, hlength]
  exact h.slice?

end Remains

/-!
# Writing over a part
-/

def overwrite? (bytes : Bytes) (start stop : Nat) (part : Bytes) : Option Bytes :=
  if start ≤ stop ∧ stop ≤ bytes.length ∧ part.length = stop - start then
    some (bytes.take start ++ part ++ bytes.drop stop)
  else none

theorem overwrite?_append (front back : Bytes) {middle part : Bytes}
    (h : part.length = middle.length) :
    (front ++ (middle ++ back)).overwrite? front.length (front.length + middle.length) part =
      some (front ++ part ++ back) := by
  have hstop : front.length + middle.length ≤ (front ++ (middle ++ back)).length := by
    rw [List.length_append, List.length_append]
    omega
  rw [overwrite?, if_pos ⟨Nat.le_add_right _ _, hstop, by rw [h, Nat.add_sub_cancel_left]⟩]
  simp

end Bytes
end Stencil
