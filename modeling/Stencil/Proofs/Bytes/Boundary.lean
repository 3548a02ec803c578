import Stencil.Proofs.Bytes.Utf8

/-!
# Texts cut behind an ASCII byte

An ASCII byte ends whatever character came before it.  So a byte string may be cut behind
an ASCII byte and decoded in two parts, and in a text a character begins there.
-/

namespace Stencil
namespace Utf8

/-- Where the decoder stands between two bytes: the byte that continues an unfinished
character is not ASCII. -/
def Proper (p : Option Pending) : Prop :=
  ∀ q, p = some q → 0x80 ≤ q.low.toNat

theorem proper_none : Proper none := nofun

theorem proper_some {low : UInt8} (h : 0x80 ≤ low.toNat) (owed code : Nat) (high : UInt8) :
    Proper (some ⟨owed, low, high, code⟩) := by
  intro q hq
  cases hq
  exact h

theorem proper_lead (b : UInt8) : Proper (lead b).2 := by
  by_cases hone : b.toNat ≤ 0x7F
  · rw [lead_one hone]
    exact proper_none
  · by_cases hother : b.toNat < 0xC2 ∨ 0xF4 < b.toNat
    · rw [lead_other (by omega)]
      exact proper_none
    · by_cases htwo : b.toNat ≤ 0xDF
      · rw [lead_two (by omega) htwo]
        exact proper_some (by decide) _ _ _
      · by_cases hthree : b.toNat ≤ 0xEF
        · rw [lead_three (by omega) hthree]
          apply proper_some
          split
          · decide
          · decide
        · rw [lead_four (by omega) (by omega)]
          apply proper_some
          split
          · decide
          · decide

theorem proper_step (p : Option Pending) (b : UInt8) : Proper (step p b).2 := by
  cases p with
  | none =>
      exact proper_lead b
  | some p =>
      rw [step]
      split
      · simp only
        split
        · exact proper_none
        · exact proper_some (by decide) _ _ _
      · exact proper_lead b

theorem step_ascii {p : Option Pending} (hp : Proper p) {b : UInt8} (hb : b.toNat ≤ 0x7F) :
    (step p b).2 = none := by
  cases p with
  | none =>
      rw [step, lead_one hb]
  | some q =>
      have hlow := hp q rfl
      have hstop : ¬ (q.low ≤ b ∧ b ≤ q.high) := by
        rw [UInt8.le_iff_toNat_le]
        omega
      rw [step, if_neg hstop, lead_one hb]

theorem decodeFrom_append_ascii {b : UInt8} (hb : b.toNat ≤ 0x7F) (rest front : Bytes)
    {p : Option Pending} (hp : Proper p) :
    decodeFrom p (front ++ b :: rest) =
      decodeFrom p (front ++ [b]) ++ decodeFrom none rest := by
  induction front generalizing p with
  | nil =>
      rw [List.nil_append, List.nil_append, decodeFrom, decodeFrom,
        step_ascii hp hb, decodeFrom, List.append_nil]
  | cons c front ih =>
      rw [List.cons_append, List.cons_append, decodeFrom, decodeFrom, ih (proper_step p c),
        List.append_assoc]

theorem decode_append_ascii {b : UInt8} (hb : b.toNat ≤ 0x7F) (front rest : Bytes) :
    decode (front ++ b :: rest) = decode (front ++ [b]) ++ decode rest :=
  decodeFrom_append_ascii hb rest front proper_none

/-!
# Boundaries of characters
-/

theorem isBoundary_zero {bytes : Bytes} (h : isValid bytes = true) :
    isBoundary bytes 0 = true := by
  cases bytes with
  | nil =>
      rfl
  | cons b rest =>
      have hstart : (0x80 ≤ b && b ≤ 0xBF) = false := by
        rw [Bool.eq_false_iff, ne_eq, Bool.and_eq_true, decide_eq_true_eq, decide_eq_true_eq]
        simp only [UInt8.le_iff_toNat_le, UInt8.reduceToNat]
        intro hb
        rw [isValid, decode, decodeFrom_lead, lead_other (by omega)] at h
        simp at h
      simp only [isBoundary, List.getElem?_cons_zero, hstart, Bool.not_false]

theorem isBoundary_length (bytes : Bytes) : isBoundary bytes bytes.length = true := by
  rw [isBoundary, List.getElem?_eq_none (Nat.le_refl _)]

theorem isBoundary_behind_ascii {b : UInt8} (hb : b.toNat ≤ 0x7F) {front rest : Bytes}
    (h : isValid (front ++ b :: rest) = true) :
    isBoundary (front ++ b :: rest) (front.length + 1) = true := by
  have hrest : isValid rest = true := by
    rw [isValid, decode_append_ascii hb, List.all_append, Bool.and_eq_true] at h
    exact h.right
  have hstart := isBoundary_zero hrest
  have hget : (front ++ b :: rest)[front.length + 1]? = rest[0]? := by
    rw [List.getElem?_append_right (by omega), Nat.add_sub_cancel_left,
      List.getElem?_cons_succ]
  rw [isBoundary] at hstart ⊢
  rw [hget]
  exact hstart

end Utf8
end Stencil
