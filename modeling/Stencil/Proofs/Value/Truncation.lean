import Stencil.Proofs.Bytes.Slice
import Stencil.Proofs.Value.Window
import Stencil.Standard

/-!
# Text that is cut off

What a buffer shows of a text depends on the text alone, not on the pieces in which it
is written: its beginning, as far as there is room, and behind that what the buffer
held before.  The total tells whether something was cut off, and how large a buffer has
to be to hold all of it.

A text can also be written by a copier that knows only the buffer and the total, and
copies to the offset of the total.  It never copies behind the end of the buffer, and it
does what a window does.
-/

namespace Stencil

/-!
# Copying by offsets
-/

/-- A buffer beside the number of bytes written to it so far, stored or not. -/
structure Copier where
  buffer : Bytes
  total : Nat

namespace Copier

def fitting (c : Copier) (piece : Bytes) : Nat :=
  min (c.buffer.length - c.total) piece.length

def write? (c : Copier) (piece : Bytes) : Option Copier :=
  if c.total < c.buffer.length then do
    let part ← piece.slice? 0 (c.fitting piece)
    let changed ← c.buffer.overwrite? c.total (c.total + c.fitting piece) part
    some ⟨changed, c.total + piece.length⟩
  else some ⟨c.buffer, c.total + piece.length⟩

theorem write?_of_stored (front rest piece : Bytes) :
    write? ⟨front ++ rest, front.length⟩ piece =
      some ⟨front ++ piece.take rest.length ++ rest.drop piece.length,
        front.length + piece.length⟩ := by
  rw [write?]
  by_cases hroom : front.length < (front ++ rest).length
  · rw [if_pos hroom]
    have hfitting : fitting ⟨front ++ rest, front.length⟩ piece =
        min rest.length piece.length := by
      rw [fitting, List.length_append, Nat.add_sub_cancel_left]
    generalize fitting ⟨front ++ rest, front.length⟩ piece = count at hfitting ⊢
    have hwidth : (rest.take count).length = count := by
      rw [List.length_take]
      omega
    have hpart : (piece.take count).length = (rest.take count).length := by
      rw [List.length_take, List.length_take]
      omega
    have hslice : piece.slice? 0 count = some (piece.take count) :=
      Bytes.slice?_take (hfitting ▸ Nat.min_le_right _ _)
    have hcopied := Bytes.overwrite?_append front (rest.drop count) hpart
    rw [List.take_append_drop, hwidth] at hcopied
    have hkept : piece.take count = piece.take rest.length := by
      rw [hfitting, ← List.take_take, List.take_length]
    have hleft : rest.drop count = rest.drop piece.length := by
      rw [hfitting, Nat.min_comm]
      simp
    rw [hslice, Option.bind_eq_bind, Option.bind_some, hcopied, hkept, hleft]
    rfl
  · have hrest : rest = [] := by
      rw [List.length_append] at hroom
      exact List.eq_nil_of_length_eq_zero (by omega)
    rw [if_neg hroom, hrest]
    simp

def writeAll? (c : Copier) (pieces : List Bytes) : Option Copier :=
  pieces.foldlM write? c

end Copier

namespace Window

def copier (w : Window) : Copier where
  buffer := w.buffer
  total := w.total

def Filled (w : Window) : Prop :=
  w.stored.size = min w.total w.size

theorem filled_new (initial : Bytes) : Filled { rest := initial } :=
  (Nat.zero_min _).symm

theorem Filled.write {w : Window} (h : w.Filled) (piece : Bytes) : (w.write piece).Filled := by
  have hstored : (w.write piece).stored.size =
      w.stored.size + min piece.length w.rest.length := by
    rw [← List.length_zipWith (f := fun b _ => b)]
    rfl
  have hrest : (w.write piece).rest.length = w.rest.length - piece.length := List.length_drop
  have htotal : (w.write piece).total = w.total + piece.length := rfl
  rw [Filled, size] at h ⊢
  rw [hstored, hrest, htotal]
  omega

/-- Where there is room, the offset `total` is the end of what is stored; elsewhere
nothing is left of the buffer that could be written over. -/
theorem Filled.write?_eq {w : Window} (h : w.Filled) (piece : Bytes) :
    w.copier.write? piece = some (w.write piece).copier := by
  rw [Filled, size, Log.size_eq_length] at h
  rw [copier, copier, buffer_write, buffer]
  by_cases hroom : w.total ≤ w.stored.toList.length
  · have htotal : w.total = w.stored.toList.length := by omega
    rw [htotal, Copier.write?_of_stored]
    rw [← htotal]
    rfl
  · have hrest : w.rest = [] := List.eq_nil_of_length_eq_zero (by omega)
    have hfull : ¬ w.total < w.stored.toList.length := by omega
    rw [hrest, List.append_nil, Copier.write?, if_neg hfull, List.length_nil, List.take_zero,
      List.append_nil, List.drop_nil, List.append_nil]
    rfl

theorem Filled.writeAll?_eq {w : Window} (h : w.Filled) (pieces : List Bytes) :
    w.copier.writeAll? pieces = some (w.writeAll pieces).copier := by
  -- The invariant is that the window is filled, without which the total would not be the
  -- offset at which the window goes on.
  induction pieces generalizing w with
  | nil =>
      rfl
  | cons piece rest ih =>
      rw [Copier.writeAll?, List.foldlM_cons, h.write?_eq piece]
      exact ih (h.write piece)

/-!
# What is left in the buffer
-/

/-- A text has been written to the buffer `initial`, which shows as much of its beginning
as there is room for, and behind that what it held before. -/
structure Shows (w : Window) (initial text : Bytes) : Prop where
  total_eq : w.total = text.length
  length_eq : w.buffer.length = initial.length
  beginning : ∀ i < min initial.length text.length, w.buffer[i]? = text[i]?
  behind : ∀ i, min initial.length text.length ≤ i → w.buffer[i]? = initial[i]?

theorem shows_writeAll (initial : Bytes) (pieces : List Bytes) :
    (writeAll { rest := initial } pieces).Shows initial pieces.flatten := by
  have hbuffer := buffer_writeAll initial pieces
  have htotal := total_writeAll initial pieces
  generalize writeAll { rest := initial } pieces = w at hbuffer htotal ⊢
  generalize pieces.flatten = text at hbuffer htotal ⊢
  have hstored : (text.take initial.length).length = min initial.length text.length :=
    List.length_take
  constructor
  · exact htotal
  · rw [hbuffer, List.length_append, hstored, List.length_drop]
    omega
  · intro i hi
    rw [hbuffer, List.getElem?_append_left (hstored ▸ hi), List.getElem?_take_of_lt (by omega)]
  · intro i hi
    -- Behind a text that is cut off there is nothing left of the buffer.
    rw [hbuffer, List.getElem?_append_right (hstored ▸ hi), List.getElem?_drop, hstored]
    by_cases hroom : text.length ≤ initial.length
    · rw [Nat.min_eq_right hroom] at hi ⊢
      rw [Nat.add_sub_cancel' hi]
    · rw [List.getElem?_eq_none (by omega), List.getElem?_eq_none (by omega)]

namespace Shows

variable {w : Window} {initial text : Bytes}

theorem lt_total_iff (h : w.Shows initial text) :
    initial.length < w.total ↔ ¬ text <+: w.buffer := by
  rw [h.total_eq]
  constructor
  · intro hlarge hprefix
    have hle := hprefix.length_le
    rw [h.length_eq] at hle
    omega
  · intro hcut
    apply Nat.lt_of_not_le
    intro hroom
    apply hcut
    rw [List.prefix_iff_getElem?]
    intro i hi
    rw [h.beginning i (by omega), List.getElem?_eq_getElem hi]

theorem buffer_eq (h : w.Shows initial text) (hsize : initial.length = text.length) :
    w.buffer = text := by
  apply List.ext_getElem?
  intro i
  by_cases hi : i < text.length
  · exact h.beginning i (by omega)
  · rw [List.getElem?_eq_none (by rw [h.length_eq]; omega), List.getElem?_eq_none (by omega)]

end Shows

theorem writeAll_again {initial again : Bytes} {pieces others : List Bytes}
    (hsize : again.length = (writeAll { rest := initial } pieces).total)
    (htext : others.flatten = pieces.flatten) :
    (writeAll { rest := again } others).buffer = pieces.flatten ∧
      (writeAll { rest := again } others).total =
        (writeAll { rest := initial } pieces).total := by
  have hshows := shows_writeAll again others
  rw [htext] at hshows
  rw [total_writeAll] at hsize
  rw [total_writeAll initial pieces]
  exact ⟨hshows.buffer_eq hsize, hshows.total_eq⟩

end Window

/-!
# The theorem
-/

/-- Whatever a buffer holds at first and however a text is cut into pieces, writing
it shows as much of its beginning as there is room for and leaves the rest of the
buffer alone; copying by offsets comes to the same and never out of range.  The total
is the length of the text, so that it is larger than the buffer just when something
was cut off, and a buffer of that size holds all of it.  The display text of a value
is written like this. -/
theorem writing_cuts_off_at_end [Addressing] (initial : Bytes) :
    (∀ pieces : List Bytes,
      let w := Window.writeAll { rest := initial } pieces
      w.Shows initial pieces.flatten ∧
        Copier.writeAll? ⟨initial, 0⟩ pieces = some ⟨w.buffer, w.total⟩ ∧
        (initial.length < w.total ↔ ¬ pieces.flatten <+: w.buffer) ∧
        ∀ (again : Bytes) (others : List Bytes), again.length = w.total →
          others.flatten = pieces.flatten →
            (Window.writeAll { rest := again } others).buffer = pieces.flatten ∧
              (Window.writeAll { rest := again } others).total = w.total) ∧
    ∀ v : Value,
      let w := v.renderInto initial
      w.Shows initial v.display ∧
        (initial.length < w.total ↔ ¬ v.display <+: w.buffer) ∧
        ∀ again : Bytes, again.length = w.total →
          (v.renderInto again).buffer = v.display ∧ (v.renderInto again).total = w.total := by
  constructor
  · intro pieces
    have hshows := Window.shows_writeAll initial pieces
    exact ⟨hshows, (Window.filled_new initial).writeAll?_eq pieces, hshows.lt_total_iff,
      fun again others => Window.writeAll_again⟩
  · intro v
    have hshows : (v.renderInto initial).Shows initial v.display :=
      Window.shows_writeAll initial v.displayPieces
    exact ⟨hshows, hshows.lt_total_iff, fun again hsize => Window.writeAll_again hsize rfl⟩

/-- The end of the buffer cuts an escape, and nothing is written behind that. -/
theorem writing_cuts_off_inside_escape :
    let v := Value.string [0x61, 0x01, 0x62]
    let w := v.renderInto (Bytes.ofText "###")
    let again := Bytes.ofText "######"
    let others := [Bytes.ofText "a\\0", [], Bytes.ofText "01b"]
    again.length = w.total ∧ others.flatten = v.displayPieces.flatten ∧
      w.buffer = Bytes.ofText "a\\0" ∧ w.total = 6 ∧ ¬ v.display <+: w.buffer ∧
      (v.renderInto again).buffer = Bytes.ofText "a\\001b" ∧
      (Window.writeAll { rest := again } others).buffer = Bytes.ofText "a\\001b" := by
  intro v w again others
  rcases writing_cuts_off_at_end (Bytes.ofText "###") with ⟨hpieces, hvalues⟩
  rcases hpieces v.displayPieces with ⟨_, _, _, hothers⟩
  rcases hvalues v with ⟨_, hcut, hagain⟩
  have hsize : again.length = w.total := by decide
  have htext : others.flatten = v.displayPieces.flatten := by decide
  have hdisplay : v.display = Bytes.ofText "a\\001b" := by decide
  exact ⟨hsize, htext, by decide, by decide, hcut.mp (by decide),
    (hagain again hsize).left.trans hdisplay,
    (hothers again others hsize htext).left.trans hdisplay⟩

end Stencil
