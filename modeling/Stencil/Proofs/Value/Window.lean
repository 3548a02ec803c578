import Stencil.Value.Display

/-!
# Writing into a buffer

A window keeps as much of what is written as its buffer has room for, byte over byte, and
counts all of it.  What the buffer held before shows only behind the text.
-/

namespace Stencil

namespace Window

theorem length_buffer (w : Window) : w.buffer.length = w.size := by
  rw [buffer, size, List.length_append, Log.size_eq_length]

theorem zipWith_eq_take (piece rest : Bytes) :
    piece.zipWith (fun b _ => b) rest = piece.take rest.length := by
  induction piece generalizing rest with
  | nil =>
      simp
  | cons b piece ih =>
      cases rest with
      | nil =>
          rfl
      | cons c rest =>
          rw [List.zipWith_cons_cons, ih, List.length_cons, List.take_succ_cons]

theorem buffer_write (w : Window) (piece : Bytes) :
    (w.write piece).buffer =
      w.stored.toList ++ piece.take w.rest.length ++ w.rest.drop piece.length := by
  rw [buffer, write, Log.toList_append, zipWith_eq_take]

theorem writeAll_eq (w : Window) (pieces : List Bytes) :
    (w.writeAll pieces).stored.toList = w.stored.toList ++ pieces.flatten.take w.rest.length ∧
      (w.writeAll pieces).rest = w.rest.drop pieces.flatten.length ∧
      (w.writeAll pieces).total = w.total + pieces.flatten.length := by
  induction pieces generalizing w with
  | nil =>
      simp [writeAll]
  | cons piece rest ih =>
      have hstep : w.writeAll (piece :: rest) = (w.write piece).writeAll rest := rfl
      rcases ih (w.write piece) with ⟨hstored, hrest, htotal⟩
      rw [hstep, hstored, hrest, htotal, List.flatten_cons]
      refine ⟨?_, ?_, ?_⟩
      · simp [write, zipWith_eq_take, List.take_append]
      · simp [write, List.drop_drop]
      · simp [write, Nat.add_assoc]

theorem buffer_writeAll (initial : Bytes) (pieces : List Bytes) :
    (writeAll { rest := initial } pieces).buffer =
      pieces.flatten.take initial.length ++ initial.drop pieces.flatten.length := by
  rcases writeAll_eq { rest := initial } pieces with ⟨hstored, hrest, _⟩
  rw [buffer, hstored, hrest]
  rfl

theorem total_writeAll (initial : Bytes) (pieces : List Bytes) :
    (writeAll { rest := initial } pieces).total = pieces.flatten.length := by
  rcases writeAll_eq { rest := initial } pieces with ⟨_, _, htotal⟩
  rw [htotal, Nat.zero_add]

end Window

namespace Value

theorem renderInto_buffer [Addressing] (v : Value) (buffer : Bytes) :
    (v.renderInto buffer).buffer =
      v.display.take buffer.length ++ buffer.drop v.display.length :=
  Window.buffer_writeAll buffer v.displayPieces

theorem renderInto_total [Addressing] (v : Value) (buffer : Bytes) :
    (v.renderInto buffer).total = v.display.length :=
  Window.total_writeAll buffer v.displayPieces

theorem renderInto_size [Addressing] (v : Value) (buffer : Bytes) :
    (v.renderInto buffer).size = buffer.length := by
  rw [← Window.length_buffer, renderInto_buffer]
  simp
  omega

theorem take_renderInto_buffer [Addressing] (v : Value) {buffer : Bytes}
    (hroom : v.display.length ≤ buffer.length) :
    (v.renderInto buffer).buffer.take v.display.length = v.display := by
  rw [renderInto_buffer, List.take_of_length_le hroom, List.take_left]

end Value

end Stencil
