import Stencil.Proofs.Bytes.Boundary

/-!
# Seams

Cutting a byte string may tear a character apart, and then its parts decode to other marks
than the whole.  At either end and beside an ASCII byte this does not happen: the parts can
be decoded one by one.
-/

namespace Stencil
namespace Utf8

/-- An ASCII byte continues no character, so that what comes before it is decoded as if
nothing followed. -/
theorem decodeFrom_append_before_ascii {b : UInt8} (hb : b.toNat ≤ 0x7F) (rest front : Bytes)
    {p : Option Pending} (hp : Proper p) :
    decodeFrom p (front ++ b :: rest) = decodeFrom p front ++ decodeFrom none (b :: rest) := by
  induction front generalizing p with
  | nil =>
      cases p with
      | none =>
          rfl
      | some q =>
          have hlow := hp q rfl
          have hstop : ¬ (q.low ≤ b ∧ b ≤ q.high) := by
            rw [UInt8.le_iff_toNat_le]
            omega
          have hstep : step (some q) b = (none :: (lead b).1, (lead b).2) := by
            rw [step, if_neg hstop]
          change (step (some q) b).1 ++ decodeFrom (step (some q) b).2 rest = _
          rw [hstep]
          rfl
  | cons c front ih =>
      rw [List.cons_append, decodeFrom, decodeFrom, ih (proper_step p c), List.append_assoc]

/-- Two parts that meet where no character goes across. -/
inductive Seam : Bytes → Bytes → Prop where
  | start (back : Bytes) : Seam [] back
  | stop (front : Bytes) : Seam front []
  | behind {b : UInt8} (front back : Bytes) : b.toNat ≤ 0x7F → Seam (front ++ [b]) back
  | before {b : UInt8} (front back : Bytes) : b.toNat ≤ 0x7F → Seam front (b :: back)

namespace Seam

variable {front back : Bytes}

theorem decode_append (h : Seam front back) :
    decode (front ++ back) = decode front ++ decode back := by
  cases h with
  | start back =>
      rfl
  | stop front =>
      rw [List.append_nil]
      exact (List.append_nil _).symm
  | behind front back hb =>
      rw [List.append_assoc, List.singleton_append]
      exact decode_append_ascii hb front back
  | before front back hb =>
      exact decodeFrom_append_before_ascii hb back front proper_none

theorem lossy_append (h : Seam front back) :
    lossy (front ++ back) = lossy front ++ lossy back := by
  rw [lossy, h.decode_append, List.map_append]
  rfl

theorem of_append {more : Bytes} (h : Seam front (back ++ more)) : Seam front back := by
  generalize hwhole : back ++ more = whole at h
  cases h with
  | start _ =>
      exact Seam.start back
  | stop front =>
      rw [(List.append_eq_nil_iff.mp hwhole).left]
      exact Seam.stop front
  | behind front _ hb =>
      exact Seam.behind front back hb
  | before front rest hb =>
      cases back with
      | nil =>
          exact Seam.stop front
      | cons c back =>
          cases hwhole
          exact Seam.before front back hb

end Seam

/-- Between two seams a text may be decoded by itself, and it comes to stand where it
stands in the bytes. -/
theorem lossy_append_append {before middle behind : Bytes}
    (hstart : Seam before (middle ++ behind)) (hstop : Seam (before ++ middle) behind) :
    lossy (before ++ (middle ++ behind)) = lossy before ++ (lossy middle ++ lossy behind) := by
  rw [← List.append_assoc, hstop.lossy_append, hstart.of_append.lossy_append,
    List.append_assoc]

end Utf8
end Stencil
